import SchemeOs.Interpreter.Transparency

/-!
# Interpreter/Forms — what the analysis makes of a datum

The analysis of a datum returns a node, `schemeVoid`, or `schemeTrue`.  `ComesTo` tells which from
the datum.  A form that is not right comes to `schemeVoid`, and an `if` with such a part does too,
but a sequence with such an element is a node like any other.  Of some forms nothing is built.
-/

namespace SchemeOs

/-- `SCHEME_TYPE(node) - _scheme_expr_type_` is an index of `_eval_funs_`, which has 16 entries. -/
def SchemeType.HasEntry (t : SchemeType) : Prop :=
  SchemeType.exprType.ctorIdx ≤ t.ctorIdx ∧ t.ctorIdx < SchemeType.exprType.ctorIdx + 16

instance (t : SchemeType) : Decidable t.HasEntry := inferInstanceAs (Decidable (_ ∧ _))

/-- What the analysis returns: a node, `schemeVoid`, or `schemeTrue` for an `else`; of `()`, what is
neither of the constants. -/
inductive Form where
  | node | void | truth | empty
  deriving DecidableEq, Repr

namespace Form

/-- `r` is of that form. -/
def At (H : Heap) (r : Ptr) : Form → Prop
  | .node => ∃ t, H.type? r = some t ∧ t.HasEntry
  | .void => r = schemeVoid
  | .truth => r = schemeTrue
  | .empty => r = schemeNull ∨ H.type? r = some .selfEvaluating

/-- The form of an `if` with these parts. -/
def ofParts (ks : List Form) : Form := if .void ∈ ks then .void else .node

/-- The parts of an `if` never make the empty form. -/
theorem ofParts_ne_empty (ks : List Form) : ofParts ks ≠ .empty := by
  rw [ofParts]
  split <;> nofun

/-- A new node. -/
theorem at_push {m : Memory} {t : SchemeType} (ht : t.HasEntry) (u : Payload) :
    Form.node.At (m.push ⟨t, u⟩).heap m.fresh :=
  ⟨t, Heap.type?_of_obj? Memory.obj?_push_fresh, ht⟩

/-- Only the form `void` is at `scheme_void`. -/
theorem At.eq_void_iff {H : Heap} {r : Ptr} {k : Form} (h : k.At H r) (hm : HasConstants H) :
    r = schemeVoid ↔ k = .void := by
  cases k with
  | node =>
    obtain ⟨t, ht, hentry⟩ := h
    refine ⟨fun hr => ?_, nofun⟩
    rw [hr, Heap.type?_of_obj? hm.void, Option.some.injEq] at ht
    exact absurd (ht ▸ hentry) (by decide)
  | void => exact ⟨fun _ => rfl, fun _ => h⟩
  | truth => exact ⟨fun hr => absurd (h.symm.trans hr) (by decide), nofun⟩
  | empty =>
    refine ⟨fun hr => ?_, nofun⟩
    rcases h with h | h
    · exact absurd (h.symm.trans hr) (by decide)
    · rw [hr, Heap.type?_of_obj? hm.void, Option.some.injEq] at h
      exact absurd h (by decide)

end Form

/-- **What the analysis comes to**, of a datum, of the elements of a sequence and of clauses. -/
inductive ComesTo (ext : Externals) : Analyzed → Datum → Form → Prop where
  | null : ComesTo ext .datum .null .empty
  | atom {d} (hd : ∀ a b, d ≠ .pair a b) (hvoid : d ≠ .void) (hnull : d ≠ .null) :
      ComesTo ext .datum d .node
  | void : ComesTo ext .datum .void .void
  | head {a rest} (ha : a.type ≠ .symbol) (ha' : a.type ≠ .pair) :
      ComesTo ext .datum (.pair a rest) .void
  | application {a rest} (ha : a.HeadsApplication ext)
      (h : ComesTo ext .elems (.pair a rest) .node) : ComesTo ext .datum (.pair a rest) .node
  | tail {a rest k} (ha : a.HasKeyword ext k) (hk : k.IsTail) (h : ComesTo ext .elems rest .node) :
      ComesTo ext .datum (.pair a rest) .node
  | cond {a rest} (ha : a.HasKeyword ext .cond) (h : ComesTo ext .clauses rest .node) :
      ComesTo ext .datum (.pair a rest) .node
  | defvar {a e rest k name} (ha : a.HasKeyword ext .define) (h : ComesTo ext .datum e k) :
      ComesTo ext .datum (.pair a (.pair (.symbol name) (.pair e rest))) .node
  | defun {a f vars body} (ha : a.HasKeyword ext .define) (h : ComesTo ext .elems body .node) :
      ComesTo ext .datum (.pair a (.pair (.pair f vars) body)) .node
  | elseClause {a rest} (ha : a.HasKeyword ext .else) : ComesTo ext .datum (.pair a rest) .truth
  | ifBare {a rest} (ha : a.HasKeyword ext .if) (hrest : rest.type ≠ .pair) :
      ComesTo ext .datum (.pair a rest) .void
  | ifPred {a e rest k} (ha : a.HasKeyword ext .if) (h : ComesTo ext .datum e k)
      (hrest : rest.type ≠ .pair) (hnull : rest ≠ .null) :
      ComesTo ext .datum (.pair a (.pair e rest)) .void
  | ifCseq {a e₁ e₂ rest k₁ k₂} (ha : a.HasKeyword ext .if) (h₁ : ComesTo ext .datum e₁ k₁)
      (h₂ : ComesTo ext .datum e₂ k₂) (hrest : rest.type ≠ .pair) (hnull : rest ≠ .null) :
      ComesTo ext .datum (.pair a (.pair e₁ (.pair e₂ rest))) .void
  | ifLong {a e₁ e₂ e₃ rest k₁ k₂} (ha : a.HasKeyword ext .if) (h₁ : ComesTo ext .datum e₁ k₁)
      (h₂ : ComesTo ext .datum e₂ k₂) (hrest : rest ≠ .null) :
      ComesTo ext .datum (.pair a (.pair e₁ (.pair e₂ (.pair e₃ rest)))) .void
  | ifThen {a e₁ e₂ k₁ k₂} (ha : a.HasKeyword ext .if) (h₁ : ComesTo ext .datum e₁ k₁)
      (h₂ : ComesTo ext .datum e₂ k₂) :
      ComesTo ext .datum (.pair a (.pair e₁ (.pair e₂ .null))) (.ofParts [k₁, k₂])
  | ifElse {a e₁ e₂ e₃ k₁ k₂ k₃} (ha : a.HasKeyword ext .if) (h₁ : ComesTo ext .datum e₁ k₁)
      (h₂ : ComesTo ext .datum e₂ k₂) (h₃ : ComesTo ext .datum e₃ k₃) :
      ComesTo ext .datum (.pair a (.pair e₁ (.pair e₂ (.pair e₃ .null)))) (.ofParts [k₁, k₂, k₃])
  | lambda {a vars body} (ha : a.HasKeyword ext .lambda) (h : ComesTo ext .elems body .node) :
      ComesTo ext .datum (.pair a (.pair vars body)) .node
  | quote {a e rest} (ha : a.HasKeyword ext .quote) :
      ComesTo ext .datum (.pair a (.pair e rest)) .node
  | setOther {a x rest} (ha : a.HasKeyword ext .set) (hx : x.type ≠ .symbol) :
      ComesTo ext .datum (.pair a (.pair x rest)) .void
  | set {a e rest k name} (ha : a.HasKeyword ext .set) (h : ComesTo ext .datum e k) :
      ComesTo ext .datum (.pair a (.pair (.symbol name) (.pair e rest))) .node
  | elemsNil : ComesTo ext .elems .null .node
  | elemsCons {a rest k} (h : ComesTo ext .datum a k) (h' : ComesTo ext .elems rest .node) :
      ComesTo ext .elems (.pair a rest) .node
  | clausesNil : ComesTo ext .clauses .null .node
  | clausesCons {a body rest k} (h : ComesTo ext .datum a k) (hbody : ComesTo ext .elems body .node)
      (h' : ComesTo ext .clauses rest .node) :
      ComesTo ext .clauses (.pair (.pair a body) rest) .node

/-! ## Lists built in place -/

variable {ext : Externals} {m m' m₀ m₁ : Memory} {d a b : Datum} {p q r x y v expr : Ptr} {w : Prop}
  {n : ℕ} {t : SchemeType}

/-- `expr` is the first and `q` the last pair of a list that is new since `m₀`. -/
structure Built (m₀ m : Memory) (expr q : Ptr) : Prop where
  first_new : m₀.heap.obj? expr = none
  last_new : m₀.heap.obj? q = none
  first : ∃ o, m.heap.obj? expr = some o
  last : ∃ a, m.heap.car? q = some a

namespace Built

theorem effect (h : Built m₀ m expr q) (hm : HasConstants m₀.heap) (heff : Effect w m m') :
    Built m₀ m' expr q where
  first_new := h.first_new
  last_new := h.last_new
  first := by
    obtain ⟨o, ho⟩ := h.first
    exact ⟨o, heff.objs _ _ (hm.ne_null h.first_new) ho⟩
  last := by
    obtain ⟨a, ha⟩ := h.last
    obtain ⟨t, u, ho⟩ := Heap.obj?_of_car? ha
    exact ⟨a, Heap.car?_of_obj? (heff.objs _ _ (hm.ne_null h.last_new) ho)⟩

theorem push (h : m₀.heap.obj? m.fresh = none) (v : Ptr) :
    Built m₀ (m.push ⟨.pair, .pair v (some schemeNull)⟩) m.fresh m.fresh :=
  ⟨h, h, ⟨_, Memory.obj?_push_fresh⟩, _, Heap.car?_of_obj? Memory.obj?_push_fresh⟩

/-- The next pair is linked to the last one. -/
theorem link (h : Built m₀ m expr q) (hnew : m₀.heap.obj? m.fresh = none) (v : Ptr) :
    ∃ m', (schemeSetCdr q m.fresh).run (m.push ⟨.pair, .pair v (some schemeNull)⟩) =
        some ((), m') ∧ (∀ w, Effect w m₀ m → Effect w m₀ m') ∧ Built m₀ m' expr m.fresh := by
  obtain ⟨a, ha⟩ := h.last
  obtain ⟨t, u, ho⟩ := Heap.obj?_of_car? ha
  obtain ⟨o, hexpr⟩ := h.first
  have hcar := Memory.heap_push (o := ⟨.pair, .pair v (some schemeNull)⟩).car? ha
  refine ⟨_, run_schemeSetCdr hcar, fun w heff => (heff.push _).modify h.last_new,
    ⟨h.first_new, hnew, ?_, v, ?_⟩⟩
  · by_cases hq : expr = q
    · subst hq
      exact ⟨_, Memory.obj?_modify_self (Memory.heap_push _ _ ho)⟩
    · exact ⟨o, (Memory.obj?_modify_of_ne hq).trans (Memory.heap_push _ _ hexpr)⟩
  · have hne : m.fresh ≠ q := (Memory.ne_fresh ho).symm
    exact Heap.car?_of_obj? ((Memory.obj?_modify_of_ne hne).trans Memory.obj?_push_fresh)

end Built

/-- The list so far, if there is one. -/
def BuiltOr (m₀ m : Memory) (expr q : Ptr) : Prop := expr = schemeNull ∨ Built m₀ m expr q

/-- `r` is an object after a loop that ends. -/
def EndsWithObj (f : ℕ → Comp Ptr) (m : Memory) : Prop :=
  ∃ r m', Ends f m r m' ∧ ∃ o, m'.heap.obj? r = some o

/-- One more element: the rest of an iteration of the loops. -/
theorem endsWithObj_link {f : ℕ → Ptr → Ptr → Comp Ptr} (hm : HasConstants m₀.heap)
    (heff : Effect w m₀ m) (hb : BuiltOr m₀ m expr q) (v : Ptr)
    (hnext : ∀ m' expr' q', Effect w m₀ m' → Built m₀ m' expr' q' →
      EndsWithObj (fun n => f n expr' q') m') :
    EndsWithObj (fun n => do
      let p ← schemeMakePair v schemeNull
      if expr = schemeNull then
        f n p p
      else
        schemeSetCdr q p
        f n expr p) m := by
  have hnew := heff.fresh hm
  by_cases hnull : expr = schemeNull
  · obtain ⟨r, m', hends, ho⟩ := hnext _ _ _ (heff.push _) (.push hnew v)
    exact ⟨r, m', .run_bind run_schemeMakePair (.ite_pos hnull hends), ho⟩
  · obtain ⟨m₁, hrun, heff₁, hb₁⟩ := (hb.resolve_left hnull).link hnew v
    obtain ⟨r, m', hends, ho⟩ := hnext _ _ _ (heff₁ w heff) hb₁
    exact ⟨r, m', .run_bind run_schemeMakePair (.ite_neg hnull (.run_bind hrun hends)), ho⟩

/-! ## Types -/

/-- No datum has the type of an analyzed expression. -/
theorem Datum.not_isExpr_type (d : Datum) : ¬d.type.IsExpr := by
  intro h
  obtain rfl := Datum.eq_null_of_type (.inr h)
  exact absurd h (by decide)

/-- The type that `SCHEME_TYPE` finds is that of the datum, or that of a node for `()`. -/
theorem Shows.exists_type (h : Shows m.heap d p) (hm : HasConstants m.heap) :
    ∃ t, m.heap.type? p = some t ∧ (t = d.type ∨ d = .null ∧ t.IsExpr) := by
  by_cases hd : d = .null
  · subst hd
    obtain rfl : p = schemeNull := h
    obtain ⟨t, ht, hor⟩ := hm.null
    exact ⟨t, Heap.type?_of_obj? ht, hor.imp_right fun hexpr => ⟨rfl, hexpr⟩⟩
  · exact ⟨_, h.type hm hd, .inl rfl⟩

theorem Shows.exists_type_ne (h : Shows m.heap d p) (hm : HasConstants m.heap) (ht : ¬t.IsExpr)
    (hd : d.type ≠ t) : ∃ u, m.heap.type? p = some u ∧ u ≠ t := by
  obtain ⟨u, hu, rfl | ⟨-, hexpr⟩⟩ := h.exists_type hm
  · exact ⟨_, hu, hd⟩
  · exact ⟨u, hu, fun heq => ht (heq ▸ hexpr)⟩

/-! ## The parts of a form -/

/-- What is claimed of the analysis: it ends, and so do the loops of a sequence and of clauses. -/
def Analysable (ext : Externals) : Analyzed → Datum → Form → Prop
  | .datum, d, k => ∀ m p, HasConstants m.heap → Shows m.heap d p →
      ∃ r m', Ends (fun n => analyze ext n p) m r m' ∧ k.At m'.heap r
  | .elems, d, _ => ∀ m₀ m w p expr q, HasConstants m₀.heap → Shows m₀.heap d p → Effect w m₀ m →
      BuiltOr m₀ m expr q → EndsWithObj (fun n => analyzeElements ext n expr q p) m
  | .clauses, d, _ => ∀ m₀ m w p expr q, HasConstants m₀.heap → Shows m₀.heap d p → Effect w m₀ m →
      BuiltOr m₀ m expr q → EndsWithObj (fun n => analyzeClauses ext n expr q p) m

namespace Analysable

variable {k : Form}

/-- A part of a datum is analyzed in the memory that the analysis of other parts left. -/
theorem part (h : Analysable ext .datum a k) (hm : HasConstants m₀.heap)
    (hx : Shows m₀.heap a x) (heff : Effect w m₀ m) :
    ∃ v m₁, Ends (fun n => analyze ext n x) m v m₁ ∧ k.At m₁.heap v ∧
      Effect (ComesToEmpty ext .datum a) m m₁ := by
  have hc := heff.constants hm
  obtain ⟨v, m₁, hends, hk⟩ := h m x hc (hx.effect hm heff)
  obtain ⟨N, hN⟩ := hends
  have hout := (analysisSpec ext N).analyze hc (hx.effect hm heff) v m₁ (hN N le_rfl)
  exact ⟨v, m₁, ⟨N, hN⟩, hk, hout.effect⟩

/-- No elements. -/
theorem elemsNil : Analysable ext .elems .null .node := by
  intro m₀ m w p expr q hm hp heff hb
  obtain rfl : p = schemeNull := hp
  refine ⟨expr, m, .succ (.ite_pos rfl .pure), ?_⟩
  rcases hb with rfl | hb
  · obtain ⟨t, ht, -⟩ := (heff.constants hm).null
    exact ⟨_, ht⟩
  · exact hb.first

theorem clausesNil : Analysable ext .clauses .null .node := by
  intro m₀ m w p expr q hm hp heff hb
  obtain rfl : p = schemeNull := hp
  refine ⟨expr, m, .succ (.ite_pos rfl .pure), ?_⟩
  rcases hb with rfl | hb
  · obtain ⟨t, ht, -⟩ := (heff.constants hm).null
    exact ⟨_, ht⟩
  · exact hb.first

/-- One element more, which has a form. -/
theorem elemsCons (h : Analysable ext .datum a k) (h' : Analysable ext .elems b .node) :
    Analysable ext .elems (.pair a b) .node := by
  intro m₀ m w p expr q hm hp heff hb
  obtain ⟨x, y, hcell⟩ := hp.cell hm
  obtain ⟨v, m₁, hv, -, heff₁⟩ := h.part hm hcell.car heff
  have hb₁ : BuiltOr m₀ m₁ expr q := hb.imp_right fun hb => hb.effect hm heff₁
  obtain ⟨r, m', hends, ho⟩ := endsWithObj_link
    (f := fun n expr' q' => do analyzeElements ext n expr' q' (← schemeCdr p))
    hm (heff.trans heff₁) hb₁ v fun m' expr' q' heff' hb' => by
      obtain ⟨r, m'', hends, ho⟩ := h' m₀ m' _ y expr' q' hm hcell.cdr heff' (.inr hb')
      exact ⟨r, m'', .run_bind (hcell.run_schemeCdr heff') hends, ho⟩
  exact ⟨r, m', .succ (.ite_neg hcell.ne_null (.run_bind (hcell.run_schemeCar heff)
    (.bind hv hends))), ho⟩

/-- A sequence, with its type. -/
theorem sequence (h : Analysable ext .elems a .node) (hm : HasConstants m₀.heap)
    (hx : Shows m₀.heap a x) (heff : Effect w m₀ m) :
    ∃ r m' o, Ends (fun n => analyzeSequence ext n x) m r m' ∧ m'.heap.obj? r = some o ∧
      ∃ w', Effect w' m m' := by
  have hc := heff.constants hm
  have hx' := hx.effect hm heff
  obtain ⟨r, m₁, hends, o, ho⟩ :=
    h m m _ x schemeNull schemeNull hc hx' (.refl not_false) (.inl rfl)
  have hseq : Ends (fun n => analyzeSequence ext n x) m r
      (m₁.modify r fun o => { o with type := .sequenceExpr }) :=
    .succ (.bind hends (.run_bind (run_schemeSetType ho) .pure))
  obtain ⟨N, hN⟩ := hseq
  have hspec := (analysisSpec ext N).sequence hc hx' r _ (hN N le_rfl)
  exact ⟨r, _, _, ⟨N, hN⟩, Memory.obj?_modify_self ho, _, hspec.1⟩

/-- One clause more: its test has a form, and its body is a sequence. -/
theorem clausesCons {c : Datum} (h : Analysable ext .datum a k)
    (hbody : Analysable ext .elems b .node) (h' : Analysable ext .clauses c .node) :
    Analysable ext .clauses (.pair (.pair a b) c) .node := by
  intro m₀ m w p expr q hm hp heff hb
  obtain ⟨x, y, hcell⟩ := hp.cell hm
  obtain ⟨x', y', hclause⟩ := hcell.car.cell hm
  obtain ⟨v, m₁, hv, -, heff₁⟩ := h.part hm hclause.car heff
  obtain ⟨s, m₂, o, hs, -, w', heff₂⟩ := hbody.sequence hm hclause.cdr (heff.trans heff₁)
  have hb₂ : BuiltOr m₀ (m₂.push ⟨.pair, .pair v (some s)⟩) expr q :=
    hb.imp_right fun hb => (hb.effect hm heff₁).effect hm (heff₂.push _)
  obtain ⟨r, m', hends, ho⟩ := endsWithObj_link
    (f := fun n expr' q' => do analyzeClauses ext n expr' q' (← schemeCdr p))
    hm (((heff.trans heff₁).trans heff₂).push ⟨.pair, .pair v (some s)⟩) hb₂ m₂.fresh
    fun m' expr' q' heff' hb' => by
      obtain ⟨r, m'', hends, ho⟩ := h' m₀ m' _ y expr' q' hm hcell.cdr heff' (.inr hb')
      exact ⟨r, m'', .run_bind (hcell.run_schemeCdr heff') hends, ho⟩
  exact ⟨r, m', .succ (.ite_neg hcell.ne_null (.run_bind (hcell.run_schemeCar heff)
    (.run_bind (hclause.run_schemeCar heff) (.bind hv (.run_bind
      (hclause.run_schemeCdr (heff.trans heff₁)) (.bind hs
        (.run_bind run_schemeMakePair hends))))))), ho⟩

/-! ## The forms -/

/-- The empty list is returned as it is. -/
theorem null : Analysable ext .datum .null .empty := by
  intro m p hm hp
  obtain ⟨t, ht, rfl | ⟨-, hexpr⟩⟩ := hp.exists_type hm
  · exact ⟨m.fresh, _, .succ (.run_bind (run_schemeType ht) (.ite_neg (by decide)
      (.of_run run_schemeAllocObj))), .inr (Heap.type?_of_obj? Memory.obj?_push_fresh)⟩
  · exact ⟨p, m, .succ (.run_bind (run_schemeType ht) (.ite_pos hexpr .pure)), .inl hp⟩

/-- A datum that is no pair becomes a node of its own. -/
theorem atom (hd : ∀ a b, d ≠ .pair a b) (hvoid : d ≠ .void) (hnull : d ≠ .null) :
    Analysable ext .datum d .node := by
  intro m p hm hp
  have ht := hp.type hm hnull
  cases d with
  | pair a b => exact absurd rfl (hd a b)
  | void => exact absurd rfl hvoid
  | null => exact absurd rfl hnull
  | symbol name =>
    exact ⟨m.fresh, _, .succ (.run_bind (run_schemeType ht) (.ite_neg (Datum.not_isExpr_type _)
      (.of_run run_schemeAllocObj))), Form.at_push (by decide) _⟩
  | bool | int | char | string | vector =>
    exact ⟨m.fresh, _, .succ (.run_bind (run_schemeType ht) (.ite_neg (Datum.not_isExpr_type _)
      (.of_run run_schemeAllocObj))), Form.at_push (by decide) _⟩

/-- `scheme_void` comes back as it is. -/
theorem void : Analysable ext .datum .void .void := by
  intro m p hm hp
  have ht := hp.type hm nofun
  exact ⟨schemeVoid, m, .succ (.run_bind (run_schemeType ht)
    (.ite_neg (Datum.not_isExpr_type _) .pure)), rfl⟩

/-- A list that starts with neither a symbol nor a form. -/
theorem head (ha : a.type ≠ .symbol) (ha' : a.type ≠ .pair) :
    Analysable ext .datum (.pair a b) .void := by
  intro m p hm hp
  obtain ⟨x, y, hcell⟩ := hp.cell hm
  obtain ⟨t, ht, htype⟩ := hcell.car.exists_type hm
  refine ⟨schemeVoid, m, .succ (.run_bind (run_schemeType (hp.type hm nofun))
    (.ite_neg (Datum.not_isExpr_type _) (.run_bind (hcell.run_schemeCar (.refl not_false))
      (.run_bind (run_schemeType ht) ?_)))), rfl⟩
  have hne : t ≠ .symbol ∧ t ≠ .pair := by
    rcases htype with rfl | ⟨-, hexpr⟩
    · exact ⟨ha, ha'⟩
    · exact ⟨fun h => absurd (h ▸ hexpr) (by decide), fun h => absurd (h ▸ hexpr) (by decide)⟩
  cases t <;> first | exact .pure | exact absurd rfl hne.1 | exact absurd rfl hne.2

/-- A form whose handler is that of `k`. -/
theorem of_keyword {k : Keyword} {f : Form} (ha : a.HasKeyword ext k)
    (h : ∀ m p x y, HasConstants m.heap → Cell m p a b x y →
      ∃ r m', Ends (fun n => analyzeKeyword ext n k p) m r m' ∧ f.At m'.heap r) :
    Analysable ext .datum (.pair a b) f := by
  intro m p hm hp
  obtain ⟨x, y, hcell⟩ := hp.cell hm
  obtain ⟨r, m', hends, hr⟩ := h m p x y hm hcell
  refine ⟨r, m', analyze_keyword (x := x) (r := y) .refl ?_ (hcell.isKeyword hm ha) hends, hr⟩
  exact ⟨hp.type hm nofun, Heap.car?_of_obj? hcell.obj, Heap.cdr?_of_obj? hcell.obj⟩

theorem application (ha : a.HeadsApplication ext) (h : Analysable ext .elems (.pair a b) .node) :
    Analysable ext .datum (.pair a b) .node := by
  intro m p hm hp
  obtain ⟨x, y, hcell⟩ := hp.cell hm
  obtain ⟨r, m₁, o, hseq, ho, -⟩ := h.sequence hm hp (.refl not_false)
  have hends : Ends (fun n => analyzeApplication ext n p) m r
      (m₁.modify r fun o => { o with type := .applicationExpr }) :=
    .succ (.bind hseq (.run_bind (run_schemeSetType ho) .pure))
  refine ⟨r, _, analyze_application (x := x) (r := y) .refl ?_ ?_ hends, _, type?_modify ho,
    by decide⟩
  · exact ⟨hp.type hm nofun, Heap.car?_of_obj? hcell.obj, Heap.cdr?_of_obj? hcell.obj⟩
  · cases a with
    | symbol name => exact .inr ⟨hcell.car.type hm nofun, name, hcell.car.symbolVal, ha⟩
    | pair => exact .inl (hcell.car.type hm nofun)
    | _ => exact ha.elim

theorem ends_analyzeTail (h : Analysable ext .elems b .node) (hm : HasConstants m.heap)
    (hcell : Cell m p a b x y) (ht : t.HasEntry) :
    ∃ r m', Ends (fun n => analyzeTail ext n t p) m r m' ∧ Form.node.At m'.heap r := by
  have heff : Effect False m m := .refl not_false
  obtain ⟨r, m₁, o, hseq, ho, -⟩ := h.sequence hm hcell.cdr heff
  exact ⟨r, _, .succ (.run_bind (hcell.run_schemeCdr heff) (.bind hseq
    (.run_bind (run_schemeSetType ho) .pure))), _, type?_modify ho, ht⟩

/-- `begin`, `and` and `or` analyze their operands as a sequence. -/
theorem tail {k : Keyword} (ha : a.HasKeyword ext k) (hk : k.IsTail)
    (h : Analysable ext .elems b .node) : Analysable ext .datum (.pair a b) .node := by
  refine of_keyword ha fun m p x y hm hcell => ?_
  rcases hk with rfl | rfl | rfl
  · obtain ⟨r, m', hends, hr⟩ := h.ends_analyzeTail hm hcell (t := .andExpr) (by decide)
    exact ⟨r, m', .succ hends, hr⟩
  · obtain ⟨r, m', hends, hr⟩ := h.ends_analyzeTail hm hcell (t := .beginExpr) (by decide)
    exact ⟨r, m', .succ hends, hr⟩
  · obtain ⟨r, m', hends, hr⟩ := h.ends_analyzeTail hm hcell (t := .orExpr) (by decide)
    exact ⟨r, m', .succ hends, hr⟩

theorem cond (ha : a.HasKeyword ext .cond) (h : Analysable ext .clauses b .node) :
    Analysable ext .datum (.pair a b) .node := by
  refine of_keyword ha fun m p x y hm hcell => ?_
  have heff : Effect False m m := .refl not_false
  obtain ⟨r, m₁, hends, o, ho⟩ := h m m _ y schemeNull schemeNull hm hcell.cdr heff (.inl rfl)
  exact ⟨r, _, .succ (.succ (.run_bind (hcell.run_schemeCdr heff) (.bind hends
    (.run_bind (run_schemeSetType ho) .pure)))), _, type?_modify ho, by decide⟩

/-- `else` is true. -/
theorem elseClause (ha : a.HasKeyword ext .else) : Analysable ext .datum (.pair a b) .truth :=
  of_keyword ha fun m _ _ _ _ _ => ⟨schemeTrue, m, .succ .pure, rfl⟩

/-- A quoted datum, of which only the first operand is looked at. -/
theorem quote {e : Datum} (ha : a.HasKeyword ext .quote) :
    Analysable ext .datum (.pair a (.pair e b)) .node := by
  refine of_keyword ha fun m p x y hm hcell => ?_
  have heff : Effect False m m := .refl not_false
  obtain ⟨x', y', hcell'⟩ := hcell.cdr.cell hm
  exact ⟨m.fresh, _, .succ (.run_bind (hcell.run_schemeCdr heff) (.run_bind
    (hcell'.run_schemeCar heff) (.of_run run_schemeAllocObj))), Form.at_push (by decide) _⟩

/-- The definition of a variable. -/
theorem defvar {e rest : Datum} {name : List Char} (ha : a.HasKeyword ext .define)
    (h : Analysable ext .datum e k) :
    Analysable ext .datum (.pair a (.pair (.symbol name) (.pair e rest))) .node := by
  refine of_keyword ha fun m p x y hm hcell => ?_
  have heff : Effect False m m := .refl not_false
  obtain ⟨x₁, y₁, hcell₁⟩ := hcell.cdr.cell hm
  obtain ⟨x₂, y₂, hcell₂⟩ := hcell₁.cdr.cell hm
  obtain ⟨v, m₁, hv, -, -⟩ := h.part hm hcell₂.car heff
  exact ⟨m₁.fresh, _, .succ (.succ (.run_bind (hcell.run_schemeCdr heff) (.run_bind
    (hcell₁.run_schemeCar heff) (.run_bind (run_schemeType (hcell₁.car.type hm nofun)) (.run_bind
      (hcell₁.run_schemeCdr heff) (.run_bind (hcell₂.run_schemeCar heff) (.bind hv
        (.of_run run_schemeAllocObj)))))))), Form.at_push (by decide) _⟩

/-- The definition of a procedure. -/
theorem defun {f vars body : Datum} (ha : a.HasKeyword ext .define)
    (h : Analysable ext .elems body .node) :
    Analysable ext .datum (.pair a (.pair (.pair f vars) body)) .node := by
  refine of_keyword ha fun m p x y hm hcell => ?_
  have heff : Effect False m m := .refl not_false
  obtain ⟨x₁, y₁, hcell₁⟩ := hcell.cdr.cell hm
  obtain ⟨x₂, y₂, hcell₂⟩ := hcell₁.car.cell hm
  obtain ⟨s, m₁, o, hs, -, -⟩ := h.sequence hm hcell₁.cdr heff
  exact ⟨_, _, .succ (.succ (.run_bind (hcell.run_schemeCdr heff) (.run_bind
    (hcell₁.run_schemeCar heff) (.run_bind (run_schemeType (hcell₁.car.type hm nofun)) (.run_bind
      (hcell₂.run_schemeCar heff) (.run_bind (hcell₂.run_schemeCdr heff) (.run_bind
        (hcell₁.run_schemeCdr heff) (.bind hs (.run_bind run_schemeMakePair
          (.of_run run_schemeAllocObj)))))))))), Form.at_push (by decide) _⟩

theorem lambda {vars body : Datum} (ha : a.HasKeyword ext .lambda)
    (h : Analysable ext .elems body .node) :
    Analysable ext .datum (.pair a (.pair vars body)) .node := by
  refine of_keyword ha fun m p x y hm hcell => ?_
  have heff : Effect False m m := .refl not_false
  obtain ⟨x₁, y₁, hcell₁⟩ := hcell.cdr.cell hm
  obtain ⟨s, m₁, o, hs, -, -⟩ := h.sequence hm hcell₁.cdr heff
  exact ⟨m₁.fresh, _, .succ (.succ (.run_bind (hcell.run_schemeCdr heff) (.run_bind
    (hcell₁.run_schemeCar heff) (.run_bind (hcell₁.run_schemeCdr heff) (.bind hs
      (.of_run run_schemeAllocObj)))))), Form.at_push (by decide) _⟩

/-- An assignment to a name. -/
theorem set {e rest : Datum} {name : List Char} (ha : a.HasKeyword ext .set)
    (h : Analysable ext .datum e k) :
    Analysable ext .datum (.pair a (.pair (.symbol name) (.pair e rest))) .node := by
  refine of_keyword ha fun m p x y hm hcell => ?_
  have heff : Effect False m m := .refl not_false
  obtain ⟨x₁, y₁, hcell₁⟩ := hcell.cdr.cell hm
  obtain ⟨x₂, y₂, hcell₂⟩ := hcell₁.cdr.cell hm
  obtain ⟨v, m₁, hv, -, -⟩ := h.part hm hcell₂.car heff
  exact ⟨m₁.fresh, _, .succ (.succ (.run_bind (hcell.run_schemeCdr heff) (.run_bind
    (hcell₁.run_schemeCar heff) (.run_bind (run_schemeType (hcell₁.car.type hm nofun)) (.ite_neg
      (fun hne => hne rfl) (.run_bind (hcell₁.run_schemeCdr heff) (.run_bind
        (hcell₂.run_schemeCar heff) (.bind hv (.of_run run_schemeAllocObj))))))))),
      Form.at_push (by decide) _⟩

/-- An assignment to what is no name gives `scheme_void`. -/
theorem setOther {e rest : Datum} (ha : a.HasKeyword ext .set) (he : e.type ≠ .symbol) :
    Analysable ext .datum (.pair a (.pair e rest)) .void := by
  refine of_keyword ha fun m p x y hm hcell => ?_
  have heff : Effect False m m := .refl not_false
  obtain ⟨x₁, y₁, hcell₁⟩ := hcell.cdr.cell hm
  obtain ⟨t, ht, hne⟩ := hcell₁.car.exists_type_ne hm (by decide) he
  exact ⟨schemeVoid, m, .succ (.succ (.run_bind (hcell.run_schemeCdr heff) (.run_bind
    (hcell₁.run_schemeCar heff) (.run_bind (run_schemeType ht) (.ite_pos hne .pure))))), rfl⟩

/-! ## `if` -/

/-- `makeIf` returns `scheme_void` where one of the three parts is `scheme_void`. -/
theorem run_makeIf (pred cseq alter : Ptr) (m : Memory) :
    ∃ r m', (makeIf pred cseq alter).run m = some (r, m') ∧
      (if pred = schemeVoid ∨ cseq = schemeVoid ∨ alter = schemeVoid then Form.void
        else .node).At m'.heap r := by
  unfold makeIf
  split_ifs
  · exact ⟨schemeVoid, m, rfl, rfl⟩
  · exact ⟨_, _, rfl, Form.at_push (by decide) _⟩

/-- An `if` whose list of parts ends too early, in something that is not `()`. -/
theorem ifBare {rest : Datum} (ha : a.HasKeyword ext .if) (hrest : rest.type ≠ .pair) :
    Analysable ext .datum (.pair a rest) .void := by
  refine of_keyword ha fun m p x y hm hcell => ?_
  obtain ⟨t, ht, hne⟩ := hcell.cdr.exists_type_ne hm (by decide) hrest
  exact ⟨schemeVoid, m, .succ (.succ (.run_bind (hcell.run_schemeCdr (.refl not_false)) (.run_bind
    (run_schemeType ht) (.ite_neg hne .pure)))), rfl⟩

/-- An `if` whose test is followed by what is no list. -/
theorem ifPred {e rest : Datum} (ha : a.HasKeyword ext .if) (h : Analysable ext .datum e k)
    (hrest : rest.type ≠ .pair) (hnull : rest ≠ .null) :
    Analysable ext .datum (.pair a (.pair e rest)) .void := by
  refine of_keyword ha fun m p x y hm hcell => ?_
  have heff : Effect False m m := .refl not_false
  obtain ⟨x₁, y₁, hcell₁⟩ := hcell.cdr.cell hm
  obtain ⟨v, m₁, hv, -, heff₁⟩ := h.part hm hcell₁.car heff
  have hshows := hcell₁.cdr.effect hm heff₁
  obtain ⟨t, ht, hne⟩ := hshows.exists_type_ne (heff₁.constants hm) (by decide) hrest
  have hy : y₁ ≠ schemeNull := fun hy => hnull ((hcell₁.cdr.eq_null_iff hm).mp hy)
  exact ⟨schemeVoid, m₁, .succ (.succ (.run_bind (hcell.run_schemeCdr heff) (.run_bind
    (run_schemeType (hcell.cdr.type hm nofun)) (.ite_pos rfl (.run_bind (hcell₁.run_schemeCar heff)
      (.bind hv (.run_bind (hcell₁.run_schemeCdr heff₁) (.run_bind (run_schemeType ht)
        (.ite_neg hne (.ite_neg hy .pure)))))))))), rfl⟩

/-- What `_analyze_if` does after it has analyzed the consequence. -/
def ifTail (ext : Externals) (n : ℕ) (pred cseq p : Ptr) : Comp Ptr := do
  let t ← schemeType p
  if t = .pair then
    if (← schemeCdr p) ≠ schemeNull then
      return schemeVoid
    else
      makeIf pred cseq (← analyze ext n (← schemeCar p))
  else if p = schemeNull then
    makeIf pred cseq schemeNull
  else
    return schemeVoid

/-- An `if` with two parts and more, from the place after the second one. -/
theorem ends_if {e₁ e₂ rest : Datum} {k₁ k₂ : Form} (h₁ : Analysable ext .datum e₁ k₁)
    (h₂ : Analysable ext .datum e₂ k₂) (hm : HasConstants m.heap)
    (hcell : Cell m p a (.pair e₁ (.pair e₂ rest)) x y) :
    ∃ v₁ v₂ z m₂ w, Effect w m m₂ ∧ Shows m.heap rest z ∧ (v₁ = schemeVoid ↔ k₁ = .void) ∧
      (v₂ = schemeVoid ↔ k₂ = .void) ∧ ∀ r m', Ends (fun n => ifTail ext n v₁ v₂ z) m₂ r m' →
        Ends (fun n => analyzeKeyword ext n .if p) m r m' := by
  have heff : Effect False m m := .refl not_false
  obtain ⟨x₁, y₁, hcell₁⟩ := hcell.cdr.cell hm
  obtain ⟨x₂, z, hcell₂⟩ := hcell₁.cdr.cell hm
  obtain ⟨v₁, m₁, hv₁, hk₁, heff₁⟩ := h₁.part hm hcell₁.car heff
  obtain ⟨v₂, m₂, hv₂, hk₂, heff₂⟩ := h₂.part hm hcell₂.car heff₁
  have hm₁ := heff₁.constants hm
  have heff₁₂ := heff₁.trans heff₂
  refine ⟨v₁, v₂, z, m₂, _, heff₁₂, hcell₂.cdr, hk₁.eq_void_iff hm₁,
    hk₂.eq_void_iff (heff₂.constants hm₁), fun r m' hends => ?_⟩
  have ht₁ := (hcell₁.cdr.effect hm heff₁).type hm₁ nofun
  exact .succ (.succ (.run_bind (hcell.run_schemeCdr heff) (.run_bind
    (run_schemeType (hcell.cdr.type hm nofun)) (.ite_pos rfl (.run_bind (hcell₁.run_schemeCar heff)
      (.bind hv₁ (.run_bind (hcell₁.run_schemeCdr heff₁) (.run_bind (run_schemeType ht₁)
        (.ite_pos rfl (.run_bind (hcell₂.run_schemeCar heff₁) (.bind hv₂
          (.run_bind (hcell₂.run_schemeCdr heff₁₂) hends))))))))))))

theorem ifCseq {e₁ e₂ rest : Datum} {k₁ k₂ : Form} (ha : a.HasKeyword ext .if)
    (h₁ : Analysable ext .datum e₁ k₁) (h₂ : Analysable ext .datum e₂ k₂)
    (hrest : rest.type ≠ .pair) (hnull : rest ≠ .null) :
    Analysable ext .datum (.pair a (.pair e₁ (.pair e₂ rest))) .void := by
  refine of_keyword ha fun m p x y hm hcell => ?_
  obtain ⟨v₁, v₂, z, m₂, w, heff, hz, -, -, hends⟩ := h₁.ends_if h₂ hm hcell
  obtain ⟨t, ht, hne⟩ := (hz.effect hm heff).exists_type_ne (heff.constants hm) (by decide) hrest
  have hz' : z ≠ schemeNull := fun h => hnull ((hz.eq_null_iff hm).mp h)
  exact ⟨schemeVoid, m₂, hends _ _ (.run_bind (run_schemeType ht)
    (.ite_neg hne (.ite_neg hz' .pure))), rfl⟩

/-- An `if` with too many parts. -/
theorem ifLong {e₁ e₂ e₃ rest : Datum} {k₁ k₂ : Form} (ha : a.HasKeyword ext .if)
    (h₁ : Analysable ext .datum e₁ k₁) (h₂ : Analysable ext .datum e₂ k₂) (hrest : rest ≠ .null) :
    Analysable ext .datum (.pair a (.pair e₁ (.pair e₂ (.pair e₃ rest)))) .void := by
  refine of_keyword ha fun m p x y hm hcell => ?_
  obtain ⟨v₁, v₂, z, m₂, w, heff, hz, -, -, hends⟩ := h₁.ends_if h₂ hm hcell
  obtain ⟨x₃, y₃, hcell₃⟩ := hz.cell hm
  have ht := (hz.effect hm heff).type (heff.constants hm) nofun
  have hy₃ : y₃ ≠ schemeNull := fun h => hrest ((hcell₃.cdr.eq_null_iff hm).mp h)
  exact ⟨schemeVoid, m₂, hends _ _ (.run_bind (run_schemeType ht) (.ite_pos rfl
    (.run_bind (hcell₃.run_schemeCdr heff) (.ite_pos hy₃ .pure)))), rfl⟩

/-- An `if` without an alternative. -/
theorem ifThen {e₁ e₂ : Datum} {k₁ k₂ : Form} (ha : a.HasKeyword ext .if)
    (h₁ : Analysable ext .datum e₁ k₁) (h₂ : Analysable ext .datum e₂ k₂) :
    Analysable ext .datum (.pair a (.pair e₁ (.pair e₂ .null))) (.ofParts [k₁, k₂]) := by
  refine of_keyword ha fun m p x y hm hcell => ?_
  obtain ⟨v₁, v₂, z, m₂, w, heff, hz, hk₁, hk₂, hends⟩ := h₁.ends_if h₂ hm hcell
  obtain ⟨t, ht, hne⟩ := (hz.effect hm heff).exists_type_ne (heff.constants hm)
    (t := .pair) (by decide) (by decide)
  obtain rfl : z = schemeNull := hz
  obtain ⟨r, m', hrun, hr⟩ := run_makeIf v₁ v₂ schemeNull m₂
  refine ⟨r, m', hends _ _ (.run_bind (run_schemeType ht) (.ite_neg hne (.ite_pos rfl
    (.of_run hrun)))), ?_⟩
  have hnull : schemeNull ≠ schemeVoid := by decide
  simpa [Form.ofParts, hk₁, hk₂, hnull, eq_comm] using hr

/-- An `if` with an alternative. -/
theorem ifElse {e₁ e₂ e₃ : Datum} {k₁ k₂ k₃ : Form} (ha : a.HasKeyword ext .if)
    (h₁ : Analysable ext .datum e₁ k₁) (h₂ : Analysable ext .datum e₂ k₂)
    (h₃ : Analysable ext .datum e₃ k₃) :
    Analysable ext .datum (.pair a (.pair e₁ (.pair e₂ (.pair e₃ .null))))
      (.ofParts [k₁, k₂, k₃]) := by
  refine of_keyword ha fun m p x y hm hcell => ?_
  obtain ⟨v₁, v₂, z, m₂, w, heff, hz, hk₁, hk₂, hends⟩ := h₁.ends_if h₂ hm hcell
  obtain ⟨x₃, y₃, hcell₃⟩ := hz.cell hm
  obtain rfl : y₃ = schemeNull := hcell₃.cdr
  have hm₂ := heff.constants hm
  have ht := (hz.effect hm heff).type hm₂ nofun
  obtain ⟨v₃, m₃, hv₃, hk₃, heff₃⟩ := h₃.part hm hcell₃.car heff
  have hk₃ := hk₃.eq_void_iff (heff₃.constants hm₂)
  obtain ⟨r, m', hrun, hr⟩ := run_makeIf v₁ v₂ v₃ m₃
  refine ⟨r, m', hends _ _ (.run_bind (run_schemeType ht) (.ite_pos rfl (.run_bind
    (hcell₃.run_schemeCdr heff) (.ite_neg (fun h => h rfl) (.run_bind (hcell₃.run_schemeCar heff)
      (.bind hv₃ (.of_run hrun))))))), ?_⟩
  simpa [Form.ofParts, hk₁, hk₂, hk₃, eq_comm] using hr

end Analysable

/-- **The analysis comes to what the datum tells.** -/
theorem ComesTo.analysable {s : Analyzed} {k : Form} (h : ComesTo ext s d k) :
    Analysable ext s d k := by
  induction h with
  | null => exact .null
  | atom hd hvoid hnull => exact .atom hd hvoid hnull
  | void => exact .void
  | head ha ha' => exact .head ha ha'
  | application ha _ ih => exact .application ha ih
  | tail ha hk _ ih => exact .tail ha hk ih
  | cond ha _ ih => exact .cond ha ih
  | defvar ha _ ih => exact .defvar ha ih
  | defun ha _ ih => exact .defun ha ih
  | elseClause ha => exact .elseClause ha
  | ifBare ha hrest => exact .ifBare ha hrest
  | ifPred ha _ hrest hnull ih => exact .ifPred ha ih hrest hnull
  | ifCseq ha _ _ hrest hnull ih₁ ih₂ => exact .ifCseq ha ih₁ ih₂ hrest hnull
  | ifLong ha _ _ hrest ih₁ ih₂ => exact .ifLong ha ih₁ ih₂ hrest
  | ifThen ha _ _ ih₁ ih₂ => exact .ifThen ha ih₁ ih₂
  | ifElse ha _ _ _ ih₁ ih₂ ih₃ => exact .ifElse ha ih₁ ih₂ ih₃
  | lambda ha _ ih => exact .lambda ha ih
  | quote ha => exact .quote ha
  | setOther ha hx => exact .setOther ha hx
  | set ha _ ih => exact .set ha ih
  | elemsNil => exact .elemsNil
  | elemsCons _ _ ih ih' => exact .elemsCons ih ih'
  | clausesNil => exact .clausesNil
  | clausesCons _ _ _ ih ihbody ih' => exact .clausesCons ih ihbody ih'

end SchemeOs
