import SchemeOs.Compiler.Values
import SchemeOs.Interpreter.Analysis

/-!
# Interpreter/Connectives — `if`, `and`, `or` and `cond` in the interpreter

The expressions of the compiler that are made of literals, quoted data and these forms, as data and
as analyzed nodes of the interpreter.  What the interpreter makes of a node is told by the value the
expression has: an `and` and an `or` yield a boolean only.
-/

namespace SchemeOs

variable {ext : Externals} {m m' : Memory} {H H' : Heap} {p q r ep : Ptr} {d : Compiler.Datum}
  {e : Compiler.Expr} {es : List Compiler.Expr}

/-! ## Data

When an object of the memory depicts a datum of the compiler. -/

mutual

/-- The object at `p` is the datum. -/
def Depicts (H : Heap) : Ptr → Compiler.Datum → Prop
  | p, .void => p = schemeVoid
  | p, .boolean b => p = if b then schemeTrue else schemeFalse
  | p, .number n => H.obj? p = some ⟨.integer, .int n⟩
  | p, .character c => p = .char c
  | p, .string s => H.obj? p = some ⟨.string, .str s⟩
  | p, .symbol (.sym name) => H.obj? p = some ⟨.symbol, .symbol name⟩
  | _, .symbol .nil => False
  | p, .list ds => ∃ q, DepictsAll H p ds q ∧ q = schemeNull
  | p, .sExp ds d => ds ≠ [] ∧ ∃ q, DepictsAll H p ds q ∧ Depicts H q d
  | p, .abbrev .preQuote d => ∃ k r q, IsPair H p k r ∧ IsPair H r q schemeNull ∧
      H.obj? k = some ⟨.symbol, .symbol ['q', 'u', 'o', 't', 'e']⟩ ∧ Depicts H q d
  | _, .abbrev _ _ => False
  | p, .vector ds => ∃ buf, H.obj? p = some ⟨.vector, .vector buf⟩ ∧ DepictsEach H buf ds

/-- The objects are the data. -/
def DepictsEach (H : Heap) : List Ptr → List Compiler.Datum → Prop
  | [], [] => True
  | p :: ps, d :: ds => Depicts H p d ∧ DepictsEach H ps ds
  | _, _ => False

/-- The pairs from `p` on, up to `q`, hold the data. -/
def DepictsAll (H : Heap) : Ptr → List Compiler.Datum → Ptr → Prop
  | p, [], q => p = q
  | p, d :: ds, q => ∃ x r, IsPair H p x r ∧ Depicts H x d ∧ DepictsAll H r ds q

end

mutual

/-- A datum is still depicted in a larger heap. -/
theorem Depicts.sub (hsub : H.Sub H') : ∀ {d : Compiler.Datum} {p : Ptr}, Depicts H p d →
    Depicts H' p d
  | .void, _, h => h
  | .boolean _, _, h => h
  | .number _, _, h => hsub _ _ h
  | .character _, _, h => h
  | .string _, _, h => hsub _ _ h
  | .symbol (.sym _), _, h => hsub _ _ h
  | .symbol .nil, _, h => h
  | .list _, _, ⟨q, hds, hq⟩ => ⟨q, DepictsAll.sub hsub hds, hq⟩
  | .sExp _ _, _, ⟨hne, q, hds, hd⟩ => ⟨hne, q, DepictsAll.sub hsub hds, hd.sub hsub⟩
  | .abbrev .preQuote _, _, ⟨k, r, q, h, h', hk, hd⟩ =>
    ⟨k, r, q, h.sub hsub, h'.sub hsub, hsub _ _ hk, hd.sub hsub⟩
  | .abbrev .preQuasiquote _, _, h => h
  | .abbrev .preComma _, _, h => h
  | .abbrev .preCommat _, _, h => h
  | .vector _, _, ⟨buf, hp, hds⟩ => ⟨buf, hsub _ _ hp, DepictsEach.sub hsub hds⟩

theorem DepictsEach.sub (hsub : H.Sub H') : ∀ {ds : List Compiler.Datum} {ps : List Ptr},
    DepictsEach H ps ds → DepictsEach H' ps ds
  | [], [], h => h
  | _ :: _, _ :: _, ⟨hd, hds⟩ => ⟨hd.sub hsub, DepictsEach.sub hsub hds⟩

theorem DepictsAll.sub (hsub : H.Sub H') : ∀ {ds : List Compiler.Datum} {p q : Ptr},
    DepictsAll H p ds q → DepictsAll H' p ds q
  | [], _, _, h => h
  | _ :: _, _, _, ⟨x, r, hpair, hd, hds⟩ =>
    ⟨x, r, hpair.sub hsub, hd.sub hsub, DepictsAll.sub hsub hds⟩

end

/-- The constants, and `schemeTrue` among them. -/
structure Booleans (H : Heap) : Prop extends Constants H where
  true : H.type? schemeTrue = some .bool

/-- The constants are the same in a larger heap. -/
theorem Booleans.sub (h : Booleans H) (hsub : H.Sub H') : Booleans H' :=
  ⟨h.toConstants.sub hsub, hsub.type? h.true⟩

/-- An object with the type of the booleans is no other datum. -/
theorem Depicts.exists_boolean (h : Depicts H p d) (hc : Booleans H)
    (hp : H.type? p = some .bool) : ∃ b, d = .boolean b := by
  have htype : ∀ t, H.type? p = some t → t ≠ .bool → False := fun t h ht =>
    ht (Option.some.inj (h.symm.trans hp))
  have hobj : ∀ o, H.obj? p = some o → o.type ≠ .bool → False := fun o h =>
    htype _ (Heap.type?_of_obj? h)
  have hlist : ∀ {ds q}, DepictsAll H p ds q → ds ≠ [] → False := by
    intro ds q hds hne
    cases ds with
    | nil => exact hne rfl
    | cons d ds =>
      obtain ⟨x, r, hpair, -⟩ := hds
      exact htype _ hpair.1 nofun
  cases d with
  | boolean b => exact ⟨b, rfl⟩
  | void =>
    obtain rfl : p = schemeVoid := h
    exact (htype _ hc.void nofun).elim
  | character c =>
    obtain rfl : p = .char c := h
    exact (htype .char rfl nofun).elim
  | number n => exact (hobj _ h nofun).elim
  | string s => exact (hobj _ h nofun).elim
  | symbol s =>
    cases s with
    | nil => exact h.elim
    | sym name => exact (hobj _ h nofun).elim
  | list ds =>
    obtain ⟨q, hds, rfl⟩ := h
    cases ds with
    | nil =>
      obtain rfl : p = schemeNull := hds
      obtain ⟨t, hnull, ht⟩ := hc.null
      refine (hobj _ hnull ?_).elim
      rintro rfl
      rcases ht with ht | ht <;> exact absurd ht (by decide)
    | cons d ds => exact (hlist hds (List.cons_ne_nil d ds)).elim
  | sExp ds d =>
    obtain ⟨hne, q, hds, -⟩ := h
    exact (hlist hds hne).elim
  | «abbrev» pre d =>
    cases pre with
    | preQuote =>
      obtain ⟨k, r, q, hpair, -⟩ := h
      exact (htype _ hpair.1 nofun).elim
    | _ => exact h.elim
  | vector ds =>
    obtain ⟨buf, hp', -⟩ := h
    exact (hobj _ hp' nofun).elim

/-- Only `#f` is false in both. -/
theorem Depicts.false_iff (h : Depicts H p d) (hc : Booleans H) :
    p = schemeFalse ↔ Compiler.falsep (.const d) := by
  constructor
  · rintro rfl
    obtain ⟨b, rfl⟩ := h.exists_boolean hc hc.false
    cases b with
    | false => rfl
    | true => exact absurd h (by decide : schemeFalse ≠ schemeTrue)
  · intro hd
    unfold Compiler.falsep at hd
    split at hd
    · rename_i heq
      cases heq
      exact h
    · cases hd

/-! ## Expressions

Two relations for each expression: the datum that it is written as, and the node that the analysis
makes of it.  Both only grow with the heap. -/

mutual

/-- The datum at `p` is the expression in the syntax of the interpreter. -/
def Writes (ext : Externals) (H : Heap) : Ptr → Compiler.Expr → Prop
  | p, .selfEval d => IsLiteral H p ∧ Depicts H p d
  | p, .quote d => ∃ k r c, IsPair H p k r ∧ IsKeyword ext H k .quote ∧ IsPair H r c schemeNull ∧
      Depicts H c d
  | p, .branch test thenExp elseExp => ∃ k p₁ p₂ p₃, H.Spine p [k, p₁, p₂, p₃] schemeNull ∧
      IsKeyword ext H k .if ∧ Writes ext H p₁ test ∧ Writes ext H p₂ thenExp ∧
      Writes ext H p₃ elseExp
  | p, .and es => ∃ k r, IsPair H p k r ∧ IsKeyword ext H k .and ∧ WritesAll ext H r es
  | p, .or es => ∃ k r, IsPair H p k r ∧ IsKeyword ext H k .or ∧ WritesAll ext H r es
  | p, .cond clauses => ∃ k r, IsPair H p k r ∧ IsKeyword ext H k .cond ∧
      WritesClauses ext H r clauses
  | _, _ => False

/-- The elements of the list at `p` are the expressions. -/
def WritesAll (ext : Externals) (H : Heap) : Ptr → List Compiler.Expr → Prop
  | p, [] => p = schemeNull
  | p, e :: es => ∃ q r, IsPair H p q r ∧ Writes ext H q e ∧ WritesAll ext H r es

/-- The elements of the list at `p` are the clauses, each a test and a body. -/
def WritesClauses (ext : Externals) (H : Heap) :
    Ptr → List (Compiler.Expr × List Compiler.Expr) → Prop
  | p, [] => p = schemeNull
  | p, (test, seq) :: clauses => ∃ q r x y, IsPair H p q r ∧ IsPair H q x y ∧
      Writes ext H x test ∧ WritesAll ext H y seq ∧ WritesClauses ext H r clauses

end

mutual

/-- The analyzed node at `p` stands for the expression. -/
def Stands (H : Heap) : Ptr → Compiler.Expr → Prop
  | p, .selfEval d | p, .quote d =>
    (H.type? p = some .selfEvaluating ∨ H.type? p = some .quotedExpr) ∧ ∃ c, H.car? p = some c ∧
      Depicts H c d
  | p, .branch test thenExp elseExp => H.type? p = some .ifExpr ∧ ∃ p₁ arms p₂ p₃,
      H.car? p = some p₁ ∧ H.cdr? p = some arms ∧ H.car? arms = some p₂ ∧ H.cdr? arms = some p₃ ∧
      Stands H p₁ test ∧ Stands H p₂ thenExp ∧ Stands H p₃ elseExp
  | p, .and es => H.type? p = some .andExpr ∧ p ≠ schemeNull ∧ StandsAll H p es
  | p, .or es => H.type? p = some .orExpr ∧ p ≠ schemeNull ∧ StandsAll H p es
  | p, .cond clauses => H.type? p = some .condExpr ∧ p ≠ schemeNull ∧ StandsClauses H p clauses
  | _, _ => False

/-- The elements of the list at `p` are nodes that stand for the expressions. -/
def StandsAll (H : Heap) : Ptr → List Compiler.Expr → Prop
  | p, [] => p = schemeNull
  | p, e :: es => p ≠ schemeNull ∧ ∃ q r, H.car? p = some q ∧ H.cdr? p = some r ∧ Stands H q e ∧
      StandsAll H r es

/-- The elements of the list at `p` are pairs of nodes that stand for the clauses. -/
def StandsClauses (H : Heap) : Ptr → List (Compiler.Expr × List Compiler.Expr) → Prop
  | p, [] => p = schemeNull
  | p, (test, seq) :: clauses => p ≠ schemeNull ∧ ∃ q r x y, H.car? p = some q ∧
      H.cdr? p = some r ∧ H.car? q = some x ∧ H.cdr? q = some y ∧ Stands H x test ∧
      StandsAll H y seq ∧ y ≠ schemeNull ∧ StandsClauses H r clauses

end

mutual

/-- The expression is made of literals, quoted data and these forms: no form is without operands, no
clause without a body, and the constants are declared in the C file. -/
def Full : Compiler.Expr → Prop
  | .branch test thenExp elseExp => Full test ∧ Full thenExp ∧ Full elseExp
  | .and es | .or es => es ≠ [] ∧ FullAll es
  | .cond clauses => clauses ≠ [] ∧ FullClauses clauses
  | .selfEval d | .quote d => Compiler.Declarable d
  | _ => False

def FullAll : List Compiler.Expr → Prop
  | [] => True
  | e :: es => Full e ∧ FullAll es

def FullClauses : List (Compiler.Expr × List Compiler.Expr) → Prop
  | [] => True
  | (test, seq) :: clauses => Full test ∧ seq ≠ [] ∧ FullAll seq ∧ FullClauses clauses

end

mutual

/-- An expression is still written in a larger heap. -/
theorem Writes.sub (hsub : H.Sub H') : ∀ {e : Compiler.Expr} {p : Ptr}, Writes ext H p e →
    Writes ext H' p e
  | .selfEval _, _, ⟨h, hd⟩ => ⟨h.sub hsub, hd.sub hsub⟩
  | .quote _, _, ⟨k, r, c, h, hk, h', hd⟩ =>
    ⟨k, r, c, h.sub hsub, hk.sub hsub, h'.sub hsub, hd.sub hsub⟩
  | .branch _ _ _, _, ⟨k, p₁, p₂, p₃, hs, hk, h₁, h₂, h₃⟩ =>
    ⟨k, p₁, p₂, p₃, hs.sub hsub, hk.sub hsub, h₁.sub hsub, h₂.sub hsub, h₃.sub hsub⟩
  | .and _, _, ⟨k, r, h, hk, hes⟩ => ⟨k, r, h.sub hsub, hk.sub hsub, WritesAll.sub hsub hes⟩
  | .or _, _, ⟨k, r, h, hk, hes⟩ => ⟨k, r, h.sub hsub, hk.sub hsub, WritesAll.sub hsub hes⟩
  | .cond _, _, ⟨k, r, h, hk, hcs⟩ => ⟨k, r, h.sub hsub, hk.sub hsub, WritesClauses.sub hsub hcs⟩

theorem WritesAll.sub (hsub : H.Sub H') : ∀ {es : List Compiler.Expr} {p : Ptr},
    WritesAll ext H p es → WritesAll ext H' p es
  | [], _, h => h
  | _ :: _, _, ⟨q, r, h, he, hes⟩ => ⟨q, r, h.sub hsub, he.sub hsub, WritesAll.sub hsub hes⟩

theorem WritesClauses.sub (hsub : H.Sub H') :
    ∀ {clauses : List (Compiler.Expr × List Compiler.Expr)} {p : Ptr},
      WritesClauses ext H p clauses → WritesClauses ext H' p clauses
  | [], _, h => h
  | _ :: _, _, ⟨q, r, x, y, h, h', ht, hseq, hcs⟩ => ⟨q, r, x, y, h.sub hsub, h'.sub hsub,
      ht.sub hsub, WritesAll.sub hsub hseq, WritesClauses.sub hsub hcs⟩

end

mutual

/-- A node still stands for its expression in a larger heap. -/
theorem Stands.sub (hsub : H.Sub H') : ∀ {e : Compiler.Expr} {p : Ptr}, Stands H p e →
    Stands H' p e
  | .selfEval _, _, ⟨ht, c, hc, hd⟩ =>
    ⟨ht.imp hsub.type? hsub.type?, c, hsub.car? hc, hd.sub hsub⟩
  | .quote _, _, ⟨ht, c, hc, hd⟩ => ⟨ht.imp hsub.type? hsub.type?, c, hsub.car? hc, hd.sub hsub⟩
  | .branch _ _ _, _, ⟨ht, p₁, arms, p₂, p₃, h₁, h₂, h₃, h₄, n₁, n₂, n₃⟩ =>
    ⟨hsub.type? ht, p₁, arms, p₂, p₃, hsub.car? h₁, hsub.cdr? h₂, hsub.car? h₃, hsub.cdr? h₄,
      n₁.sub hsub, n₂.sub hsub, n₃.sub hsub⟩
  | .and _, _, ⟨ht, hne, hes⟩ => ⟨hsub.type? ht, hne, StandsAll.sub hsub hes⟩
  | .or _, _, ⟨ht, hne, hes⟩ => ⟨hsub.type? ht, hne, StandsAll.sub hsub hes⟩
  | .cond _, _, ⟨ht, hne, hcs⟩ => ⟨hsub.type? ht, hne, StandsClauses.sub hsub hcs⟩

theorem StandsAll.sub (hsub : H.Sub H') : ∀ {es : List Compiler.Expr} {p : Ptr},
    StandsAll H p es → StandsAll H' p es
  | [], _, h => h
  | _ :: _, _, ⟨hne, q, r, h₁, h₂, n, ns⟩ =>
    ⟨hne, q, r, hsub.car? h₁, hsub.cdr? h₂, n.sub hsub, StandsAll.sub hsub ns⟩

theorem StandsClauses.sub (hsub : H.Sub H') :
    ∀ {clauses : List (Compiler.Expr × List Compiler.Expr)} {p : Ptr}, StandsClauses H p clauses →
      StandsClauses H' p clauses
  | [], _, h => h
  | _ :: _, _, ⟨hne, q, r, x, y, h₁, h₂, h₃, h₄, n, ns, hy, hcs⟩ =>
    ⟨hne, q, r, x, y, hsub.car? h₁, hsub.cdr? h₂, hsub.car? h₃, hsub.cdr? h₄, n.sub hsub,
      StandsAll.sub hsub ns, hy, StandsClauses.sub hsub hcs⟩

end

/-! ## Analysis

The analysis takes the one to the other, by induction on its fuel. -/

theorem persists_writes : Persists (Writes ext) := fun _ _ _ _ hsub h => h.sub hsub

theorem persists_stands : Persists Stands := fun _ _ _ _ hsub h => h.sub hsub

/-- Expressions are written as a list of what each is written as. -/
theorem writesAll_iff : WritesAll ext H p es ↔ ListOf (Writes ext) H p es := by
  induction es generalizing p with
  | nil => simp only [WritesAll, ListOf]
  | cons e es ih => simp only [WritesAll, ListOf, ih]

/-- Their nodes are a list of the node of each. -/
theorem standsAll_iff : StandsAll H p es ↔ NodesOf Stands H p es := by
  induction es generalizing p with
  | nil => simp only [StandsAll, NodesOf]
  | cons e es ih => simp only [StandsAll, NodesOf, ih]

theorem StandsAll.ne_null (hne : es ≠ []) (h : StandsAll H p es) : p ≠ schemeNull := by
  cases es with
  | nil => exact absurd rfl hne
  | cons e es => exact h.1

/-- A node is an analyzed expression. -/
theorem Stands.isExpr (h : Stands H p e) : ∃ t, H.type? p = some t ∧ t.IsExpr := by
  cases e <;> rw [Stands] at h
  case selfEval | quote =>
    exact h.1.elim (fun ht => ⟨_, ht, by decide⟩) fun ht => ⟨_, ht, by decide⟩
  case branch | and | or | cond => exact ⟨_, h.1, by decide⟩
  all_goals exact h.elim

/-- A constant that is no expression is not a node. -/
theorem Stands.ne_of_type {c : Ptr} {t : SchemeType} (h : Stands H p e) (hc : H.type? c = some t)
    (ht : ¬t.IsExpr) : p ≠ c := by
  rintro rfl
  obtain ⟨t', ht', hexpr⟩ := h.isExpr
  rw [hc, Option.some.injEq] at ht'
  exact ht (ht' ▸ hexpr)

/-- Analysis of an expression ends with a node that stands for it. -/
abbrev Settles (ext : Externals) : Compiler.Expr → Prop := AnalyzesAs ext (Writes ext) Stands

/-- A literal is analyzed to itself. -/
theorem settles_selfEval : Settles ext (.selfEval d) := by
  intro H m p h hc hp
  obtain ⟨⟨t, ht, hlit⟩, hd⟩ := hp
  have hpush := AddsNodes.push h (o := ⟨.selfEvaluating, .pair p none⟩)
  refine ⟨m.fresh, _, _, ?_, hpush, ?_⟩
  · refine Ends.succ (Ends.run_bind (run_schemeType (h.type? ht)) (Ends.ite_neg ?_ ?_))
    · rcases hlit with rfl | rfl | rfl | rfl <;> decide
    · rcases hlit with rfl | rfl | rfl | rfl <;> exact Ends.of_run run_schemeAllocObj
  · exact ⟨.inl (Heap.type?_of_obj? obj?_insert_fresh), p, Heap.car?_of_obj? obj?_insert_fresh,
      hd.sub hpush.sub⟩

theorem settles_quote : Settles ext (.quote d) := by
  intro H m p h hc hp
  obtain ⟨k, r, c, hpair, hk, hr, hd⟩ := hp
  have hpush := AddsNodes.push h (o := ⟨.quotedExpr, .pair c none⟩)
  refine ⟨m.fresh, _, _, analyze_keyword h hpair hk (Ends.succ ?_), hpush, ?_⟩
  · exact Ends.run_bind (run_schemeCdr (h.cdr? hpair.2.2)) (Ends.run_bind
      (run_schemeCar (h.car? hr.2.1)) (Ends.of_run run_schemeAllocObj))
  · exact ⟨.inr (Heap.type?_of_obj? obj?_insert_fresh), c, Heap.car?_of_obj? obj?_insert_fresh,
      hd.sub hpush.sub⟩

/-- `_analyze_and` and `_analyze_or`. -/
theorem settles_tail {k : Keyword} {t : SchemeType}
    (hk : ∀ n p, analyzeKeyword ext (n + 1) k p = analyzeTail ext n t p)
    (hes : ∀ e ∈ es, Settles ext e) (hne : es ≠ []) {x : Ptr} (h : H.Sub m.heap) (hc : Constants H)
    (hpair : IsPair H p x r) (hx : IsKeyword ext H x k) (hr : WritesAll ext H r es) :
    ∃ q m' H', Ends (fun n => analyze ext n p) m q m' ∧ AddsNodes m H m' H' ∧
      H'.type? q = some t ∧ q ≠ schemeNull ∧ StandsAll H' q es := by
  obtain ⟨q, m₁, m', H', hends, hset, hadds, ht, hnodes⟩ :=
    analyzeSequence_retyped persists_writes persists_stands hes hne h hc (writesAll_iff.mp hr) t
  have hstands := standsAll_iff.mpr hnodes
  refine ⟨q, m', H', analyze_keyword h hpair hx ?_, hadds, ht, hstands.ne_null hne, hstands⟩
  refine Ends.succ ?_
  simp only [hk]
  exact Ends.succ (Ends.run_bind (run_schemeCdr (h.cdr? hpair.2.2)) (hends.bind
    (Ends.run_bind hset Ends.pure)))

/-- An `if` with three parts that settle. -/
theorem settles_branch {e₁ e₂ e₃ : Compiler.Expr} (h₁ : Settles ext e₁) (h₂ : Settles ext e₂)
    (h₃ : Settles ext e₃) : Settles ext (.branch e₁ e₂ e₃) := by
  intro H m p h hc hp
  obtain ⟨k, p₁, p₂, p₃, hs, hk, hp₁, hp₂, hp₃⟩ := hp
  exact analyze_if persists_writes persists_stands
    (fun hc hn => hn.ne_of_type hc.void (by decide)) h₁ h₂ h₃ h hc hs hk hp₁ hp₂ hp₃

/-! ### Clauses -/

/-- The clause at `p` is a pair of nodes for its test and its body. -/
def StandsClause (H : Heap) (p : Ptr) (clause : Compiler.Expr × List Compiler.Expr) : Prop :=
  ∃ x y, H.car? p = some x ∧ H.cdr? p = some y ∧ Stands H x clause.1 ∧ StandsAll H y clause.2 ∧
    y ≠ schemeNull

theorem StandsClause.sub {clause : Compiler.Expr × List Compiler.Expr} (h : StandsClause H p clause)
    (hsub : H.Sub H') : StandsClause H' p clause := by
  obtain ⟨x, y, hx, hy, n, ns, hne⟩ := h
  exact ⟨x, y, hsub.car? hx, hsub.cdr? hy, n.sub hsub, ns.sub hsub, hne⟩

/-- What the loop of `analyzeClauses` does with a clause. -/
theorem analyzeClause_ends {test : Compiler.Expr} (htest : Settles ext test)
    (hes : ∀ e ∈ es, Settles ext e) (hne : es ≠ []) {obj x y : Ptr} (h : H.Sub m.heap)
    (hc : Constants H) (hpair : IsPair H obj p q) (hclause : IsPair H p x y)
    (hx : Writes ext H x test) (hy : WritesAll ext H y es) :
    ∃ a m₁ H₁, AddsNodes m H m₁ H₁ ∧ StandsClause H₁ a (test, es) ∧
      ∀ {k : ℕ → Ptr → Comp Ptr} {v m'}, Ends (fun n => k n a) m₁ v m' → Ends (fun n => do
        let p ← schemeCar obj
        let q ← analyze ext n (← schemeCar p)
        let body ← analyzeSequence ext n (← schemeCdr p)
        let clause ← schemeMakePair q body
        k n clause) m v m' := by
  obtain ⟨q₁, m₁, H₁, hends₁, hg₁, hn₁⟩ := htest h hc hx
  obtain ⟨q₂, m₂, H₂, hends₂, hg₂, hn₂⟩ := analyzeSequence_nodes persists_writes persists_stands
    hes hne hg₁.part (hc.sub hg₁.sub) ((writesAll_iff.mp hy).sub persists_writes hg₁.sub)
  have hpush := AddsNodes.push hg₂.part (o := ⟨.pair, .pair q₁ (some q₂)⟩)
  have hs₁ := h.trans hg₁.heap
  have hstands := standsAll_iff.mpr hn₂
  refine ⟨m₂.fresh, _, _, hg₁.trans (hg₂.trans hpush), ⟨q₁, q₂, Heap.car?_of_obj?
    obj?_insert_fresh, Heap.cdr?_of_obj? obj?_insert_fresh, hn₁.sub (hg₂.sub.trans hpush.sub),
    hstands.sub hpush.sub, hstands.ne_null hne⟩, fun hk => ?_⟩
  exact Ends.run_bind (run_schemeCar (h.car? hpair.2.1)) (Ends.run_bind
    (run_schemeCar (h.car? hclause.2.1)) (hends₁.bind (Ends.run_bind
      (run_schemeCdr (hs₁.cdr? hclause.2.2)) (hends₂.bind (Ends.run_bind run_schemeMakePair hk)))))

section Clauses

variable {clauses : List (Compiler.Expr × List Compiler.Expr)} {t : SchemeType} {c : Ptr}

/-- Analysis of the test and of the body of a clause ends. -/
def ClauseSettles (ext : Externals) (clause : Compiler.Expr × List Compiler.Expr) : Prop :=
  Settles ext clause.1 ∧ clause.2 ≠ [] ∧ ∀ e ∈ clause.2, Settles ext e

/-- **The loop of `analyzeClauses`**: the pairs after `q` are built one by one. -/
theorem analyzeClauses_ends (hcs : ∀ x ∈ clauses, ClauseSettles ext x) {obj expr : Ptr}
    (h : H.Sub m.heap) (hc : Constants H) (hobj : WritesClauses ext H obj clauses)
    (hexpr : expr ≠ schemeNull) (hq : m.heap.obj? q = some ⟨t, .pair c (some schemeNull)⟩)
    (hqH : H.obj? q = none) :
    ∃ m' H' r, Ends (fun n => analyzeClauses ext n expr q obj) m expr m' ∧
      GrowsBut (· = q) m H m' H' ∧ m'.bindings = m.bindings ∧ m'.blocks = m.blocks ∧
      m'.heap.obj? q = some ⟨t, .pair c (some r)⟩ ∧ StandsClauses H' r clauses := by
  induction clauses generalizing H m q c t obj with
  | nil =>
    obtain rfl : obj = schemeNull := by rwa [WritesClauses] at hobj
    exact ⟨m, H, schemeNull, Ends.succ (Ends.ite_pos rfl Ends.pure), GrowsBut.refl h, rfl, rfl, hq,
      by rw [StandsClauses]⟩
  | cons clause clauses ih =>
    obtain ⟨test, seq⟩ := clause
    obtain ⟨d, rest, x, y, hpair, hclause, hx, hy, hrest⟩ := hobj
    obtain ⟨htest, hne, hes⟩ := hcs _ List.mem_cons_self
    obtain ⟨a, m₁, H₁, hadds, hstands, hends⟩ :=
      analyzeClause_ends htest hes hne h hc hpair hclause hx hy
    have hq₁ := hadds.heap _ _ hq
    have hqH₁ : H₁.obj? q = none := (hadds.old _ _ hq).trans hqH
    have hsub := sub_link (c := c) (a := a) hadds.part hqH₁
    obtain ⟨m', H', r, hends', hgrows', hbind, hblocks, hp', hnodes⟩ :=
      ih (fun z hz => hcs z (List.mem_cons_of_mem _ hz)) hsub (hc.sub hadds.sub)
        (hrest.sub hadds.sub) (link_fresh hq₁) (hadds.part.none Memory.obj?_fresh)
    obtain ⟨hgrows, hsub', hq'⟩ := hadds.toGrowsBut.link hq hgrows' hp'
    have hself := Heap.obj?_insert_self (H := H') (o := ⟨.pair, .pair a (some r)⟩) hp'
    obtain ⟨x', y', hx', hy', n, ns, hny⟩ := hstands.sub (hgrows'.sub.trans hsub')
    refine ⟨m', _, m₁.fresh, ?_, hgrows, ?_, ?_, hq', ?_⟩
    · refine Ends.succ (Ends.ite_neg (hpair.ne_null hc) (hends (Ends.run_bind run_schemeMakePair
        (Ends.ite_neg hexpr (Ends.run_bind (run_link hq₁) ?_)))))
      exact Ends.run_bind (run_schemeCdr (hsub.cdr? (hadds.sub.cdr? hpair.2.2))) hends'
    · rw [hbind, bindings_link, hadds.bindings]
    · rw [hblocks, blocks_link, hadds.blocks]
    · exact ⟨hc.fresh_ne_null (h.trans hadds.heap), a, r, x', y', Heap.car?_of_obj? hself,
        Heap.cdr?_of_obj? hself, hx', hy', n, ns, hny, hnodes.sub hsub'⟩

/-- A `cond` with clauses that settle. -/
theorem settles_cond (hcs : ∀ x ∈ clauses, ClauseSettles ext x) (hne : clauses ≠ []) :
    Settles ext (.cond clauses) := by
  intro H m p h hc hp
  obtain ⟨k, r, hcond, hk, hobj⟩ := hp
  cases clauses with
  | nil => exact absurd rfl hne
  | cons clause clauses =>
    obtain ⟨test, seq⟩ := clause
    obtain ⟨d, rest, x, y, hpair, hclause, hx, hy, hrest⟩ := hobj
    obtain ⟨htest, hne', hes⟩ := hcs _ List.mem_cons_self
    obtain ⟨a, m₁, H₁, hadds, hstands, hends⟩ :=
      analyzeClause_ends htest hes hne' h hc hpair hclause hx hy
    have hsub := hadds.part.trans (Memory.heap_push (o := ⟨.pair, .pair a (some schemeNull)⟩))
    have hnull := hc.fresh_ne_null (h.trans hadds.heap)
    obtain ⟨m₃, H', r', hends', hgrows', hbind, hblocks, hp₃, hnodes⟩ :=
      analyzeClauses_ends (fun z hz => hcs z (List.mem_cons_of_mem _ hz)) hsub
        (hc.sub hadds.sub) (hrest.sub hadds.sub) hnull Memory.obj?_push_fresh
        (hadds.part.none Memory.obj?_fresh)
    obtain ⟨hgrows, hp, hpH'⟩ := hadds.toGrowsBut.first hgrows'
    have hadds' : AddsNodes m H m₃ H' :=
      ⟨hgrows, hbind.trans hadds.bindings, hblocks.trans hadds.blocks⟩
    have hmod := Memory.obj?_modify_self (f := fun o => { o with type := .condExpr }) hp₃
    have hself := Heap.obj?_insert_self (H := H') (o := ⟨.condExpr, .pair a (some r')⟩) hmod
    have hsub' := Heap.sub_insert (o := ⟨.condExpr, .pair a (some r')⟩) hpH'
    obtain ⟨x', y', hx', hy', n, ns, hny⟩ := hstands.sub (hgrows'.sub.trans hsub')
    refine ⟨m₁.fresh, m₃.modify m₁.fresh fun o => { o with type := .condExpr }, _,
      analyze_keyword h hcond hk (Ends.succ (Ends.succ ?_)), (hadds'.modify hp hpH').join hp hpH'
        hmod, Heap.type?_of_obj? hself, hnull, hnull, a, r', x', y', Heap.car?_of_obj? hself,
        Heap.cdr?_of_obj? hself, hx', hy', n, ns, hny, hnodes.sub hsub'⟩
    refine Ends.run_bind (run_schemeCdr (h.cdr? hcond.2.2)) (Ends.bind ?_ (Ends.run_bind
      (run_schemeSetType hp₃) Ends.pure))
    refine Ends.succ (Ends.ite_neg (hpair.ne_null hc) (hends (Ends.run_bind run_schemeMakePair
      (Ends.ite_pos rfl ?_))))
    exact Ends.run_bind (run_schemeCdr (hsub.cdr? (hadds.sub.cdr? hpair.2.2))) hends'

end Clauses

mutual

/-- **Analysis of a full expression ends** with a node that stands for it. -/
theorem settles : (e : Compiler.Expr) → Full e → Settles ext e
  | .selfEval _, _ => settles_selfEval
  | .quote _, _ => settles_quote
  | .branch test thenExp elseExp, h =>
    settles_branch (settles test h.1) (settles thenExp h.2.1) (settles elseExp h.2.2)
  | .and es, h => fun hsub hc ⟨_, _, hpair, hk, hr⟩ =>
    settles_tail (fun _ _ => rfl) (settles_all es h.2) h.1 hsub hc hpair hk hr
  | .or es, h => fun hsub hc ⟨_, _, hpair, hk, hr⟩ =>
    settles_tail (fun _ _ => rfl) (settles_all es h.2) h.1 hsub hc hpair hk hr
  | .cond clauses, h => settles_cond (settles_clauses clauses h.2) h.1
  | .variable _, h | .procCall _ _, h | .sequence _, h | .lambda _ _, h | .defvar _ _, h
  | .defun _ _ _, h | .defun2 _ _ _ _, h | .assign _ _, h | .case _ _ _, h | .let _ _, h => h.elim

theorem settles_all : (es : List Compiler.Expr) → FullAll es → ∀ e ∈ es, Settles ext e
  | [], _ => nofun
  | e :: es, h => List.forall_mem_cons.mpr ⟨settles e h.1, settles_all es h.2⟩

theorem settles_clauses : (clauses : List (Compiler.Expr × List Compiler.Expr)) →
    FullClauses clauses → ∀ x ∈ clauses, ClauseSettles ext x
  | [], _ => nofun
  | (test, seq) :: clauses, h => List.forall_mem_cons.mpr
    ⟨⟨settles test h.1, h.2.1, settles_all seq h.2.2.1⟩, settles_clauses clauses h.2.2.2⟩

end

end SchemeOs
