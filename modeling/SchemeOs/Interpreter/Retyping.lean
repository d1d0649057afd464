import SchemeOs.Interpreter.Effects
import SchemeOs.Interpreter.Keywords

/-!
# Interpreter/Retyping — the frame of the analysis

Every function of the analysis makes new objects and changes those, and gives `schemeNull` a type
where the datum comes to an empty sequence.  So the analysis leaves the memory as it was exactly
when the datum does not.
-/

namespace SchemeOs

variable {ext : Externals} {m m' m₀ m₁ m₂ : Memory} {d a b : Datum} {p q r x y : Ptr} {w w' : Prop}
  {n : ℕ} {t : SchemeType}

/-- `p` is a new object, or an empty sequence. -/
def NewOrEmpty (m : Memory) (empty : Prop) (p : Ptr) : Prop :=
  (empty ∧ p = schemeNull) ∨ (¬empty ∧ m.heap.obj? p = none)

/-- What analysis does and what it returns: an analyzed expression, `schemeVoid`, or `schemeTrue`
for an `else`. -/
structure Outcome (ext : Externals) (d : Datum) (m : Memory) (r : Ptr) (m' : Memory) : Prop where
  effect : Effect (ComesToEmpty ext .datum d) m m'
  result : (∃ t, m'.heap.type? r = some t ∧ t.IsExpr) ∨ r = schemeVoid ∨
    r = schemeTrue ∧ ∃ a b, d = .pair a b ∧ a.HasKeyword ext .else
  null : r = schemeNull → d = .null ∨ ∃ a k, d = .pair a .null ∧ a.HasKeyword ext k ∧
    (k.IsTail ∨ k = .cond)

/-- What the functions of the analysis do with the fuel `n`. -/
structure AnalysisSpec (ext : Externals) (n : ℕ) : Prop where
  analyze {d : Datum} {p : Ptr} {m : Memory} (hm : HasConstants m.heap) (h : Shows m.heap d p) :
    Ensures (analyze ext n p) m (Outcome ext d m)
  keyword {a b : Datum} {k : Keyword} {p : Ptr} {m : Memory} (hm : HasConstants m.heap)
    (h : Shows m.heap (.pair a b) p) (hk : a.HasKeyword ext k) :
    Ensures (analyzeKeyword ext n k p) m (Outcome ext (.pair a b) m)
  application {a b : Datum} {p : Ptr} {m : Memory} (hm : HasConstants m.heap)
    (h : Shows m.heap (.pair a b) p) (ha : a.HeadsApplication ext) :
    Ensures (analyzeApplication ext n p) m (Outcome ext (.pair a b) m)
  tail {a b : Datum} {k : Keyword} {t : SchemeType} {p : Ptr} {m : Memory}
    (hm : HasConstants m.heap) (h : Shows m.heap (.pair a b) p) (hk : a.HasKeyword ext k)
    (htail : k.IsTail) (ht : t.IsExpr) :
    Ensures (analyzeTail ext n t p) m (Outcome ext (.pair a b) m)
  sequence {d : Datum} {p : Ptr} {m : Memory} (hm : HasConstants m.heap) (h : Shows m.heap d p) :
    Ensures (analyzeSequence ext n p) m fun r m' =>
      Effect (d = .null ∨ ComesToEmpty ext .elems d) m m' ∧ NewOrEmpty m (d = .null) r
  elements {d : Datum} {w : Prop} {expr q p : Ptr} {m₀ m : Memory} (hm : HasConstants m₀.heap)
    (h : Shows m₀.heap d p) (heff : Effect w m₀ m)
    (hexpr : expr = schemeNull ∨ m₀.heap.obj? expr = none ∧ m₀.heap.obj? q = none) :
    Ensures (analyzeElements ext n expr q p) m fun r m' =>
      Effect (w ∨ ComesToEmpty ext .elems d) m₀ m' ∧
        NewOrEmpty m₀ (expr = schemeNull ∧ d = .null) r
  cond {a b : Datum} {p : Ptr} {m : Memory} (hm : HasConstants m.heap)
    (h : Shows m.heap (.pair a b) p) (hk : a.HasKeyword ext .cond) :
    Ensures (analyzeCond ext n p) m (Outcome ext (.pair a b) m)
  clauses {d : Datum} {w : Prop} {expr s p : Ptr} {m₀ m : Memory} (hm : HasConstants m₀.heap)
    (h : Shows m₀.heap d p) (heff : Effect w m₀ m)
    (hexpr : expr = schemeNull ∨ m₀.heap.obj? expr = none ∧ m₀.heap.obj? s = none) :
    Ensures (analyzeClauses ext n expr s p) m fun r m' =>
      Effect (w ∨ ComesToEmpty ext .clauses d) m₀ m' ∧
        NewOrEmpty m₀ (expr = schemeNull ∧ d = .null) r
  definition {a b : Datum} {p : Ptr} {m : Memory} (hm : HasConstants m.heap)
    (h : Shows m.heap (.pair a b) p) (hk : a.HasKeyword ext .define) :
    Ensures (analyzeDefinition ext n p) m (Outcome ext (.pair a b) m)
  ifForm {a b : Datum} {p : Ptr} {m : Memory} (hm : HasConstants m.heap)
    (h : Shows m.heap (.pair a b) p) (hk : a.HasKeyword ext .if) :
    Ensures (analyzeIf ext n p) m (Outcome ext (.pair a b) m)
  lambda {a b : Datum} {p : Ptr} {m : Memory} (hm : HasConstants m.heap)
    (h : Shows m.heap (.pair a b) p) (hk : a.HasKeyword ext .lambda) :
    Ensures (analyzeLambda ext n p) m (Outcome ext (.pair a b) m)
  assignment {a b : Datum} {p : Ptr} {m : Memory} (hm : HasConstants m.heap)
    (h : Shows m.heap (.pair a b) p) (hk : a.HasKeyword ext .set) :
    Ensures (analyzeAssignment ext n p) m (Outcome ext (.pair a b) m)

/-! ## Cells -/

/-- The pair at `p`, whose parts lie at `x` and `y` now and after the analysis of other data. -/
structure Cell (m₀ : Memory) (p : Ptr) (a b : Datum) (x y : Ptr) : Prop where
  car : Shows m₀.heap a x
  cdr : Shows m₀.heap b y
  ne_null : p ≠ schemeNull
  obj : m₀.heap.obj? p = some ⟨.pair, .pair x (some y)⟩

/-- A pair that is a datum is a cell. -/
theorem Shows.cell (hm : HasConstants m₀.heap) (h : Shows m₀.heap (.pair a b) p) :
    ∃ x y, Cell m₀ p a b x y := by
  have hnull : p ≠ schemeNull := fun hp => nomatch (h.eq_null_iff hm).mp hp
  obtain ⟨x, y, ho, ha, hb⟩ := h
  exact ⟨x, y, ha, hb, hnull, ho⟩

theorem Cell.run_schemeCar (h : Cell m₀ p a b x y) (heff : Effect w m₀ m) :
    (schemeCar p).run m = some (x, m) :=
  SchemeOs.run_schemeCar (Heap.car?_of_obj? (heff.objs p _ h.ne_null h.obj))

theorem Cell.run_schemeCdr (h : Cell m₀ p a b x y) (heff : Effect w m₀ m) :
    (schemeCdr p).run m = some (y, m) :=
  SchemeOs.run_schemeCdr (Heap.cdr?_of_obj? (heff.objs p _ h.ne_null h.obj))

/-- Where `schemeCar` succeeds, the datum was a pair. -/
theorem ensures_car (hm : HasConstants m₀.heap) (h : Shows m₀.heap d p) (heff : Effect w m₀ m) :
    Ensures (schemeCar p) m fun x m' => m' = m ∧ ∃ a b y, d = .pair a b ∧ Cell m₀ p a b x y := by
  intro x m' hrun
  obtain ⟨rfl, a, b, rfl, -⟩ :=
    ensures_schemeCar (h.effect hm heff) (heff.constants hm) x m' hrun
  obtain ⟨x', y, hcell⟩ := h.cell hm
  rw [hcell.run_schemeCar heff] at hrun
  cases hrun
  exact ⟨rfl, a, b, y, rfl, hcell⟩

/-- The type that `SCHEME_TYPE` finds tells a datum from `()`. -/
theorem ensures_type (hm : HasConstants m₀.heap) (h : Shows m₀.heap d p) (heff : Effect w m₀ m) :
    Ensures (schemeType p) m fun t m' => m' = m ∧ (d ≠ .null → t = d.type) ∧
      (d = .null → t = .null ∨ t.IsExpr) :=
  ensures_schemeType (h.effect hm heff) (heff.constants hm)

theorem Shows.symbolVal {name : List Char} (h : Shows m.heap (.symbol name) p) :
    m.heap.symbolVal? p = some name := by
  rw [Heap.symbolVal?, show m.heap.obj? p = some _ from h]

theorem Datum.eq_pair_of_type (ht : (d ≠ .null → t = d.type) ∧ (d = .null → t = .null ∨ t.IsExpr))
    (hpair : t = .pair) : ∃ a b, d = .pair a b := by
  subst hpair
  cases d with
  | pair a b => exact ⟨a, b, rfl⟩
  | null => exact absurd (ht.2 rfl) (by decide)
  | _ => exact absurd (ht.1 nofun) nofun

theorem Datum.eq_symbol_of_type
    (ht : (d ≠ .null → t = d.type) ∧ (d = .null → t = .null ∨ t.IsExpr)) (hsymbol : t = .symbol) :
    ∃ name, d = .symbol name := by
  subst hsymbol
  cases d with
  | symbol name => exact ⟨name, rfl⟩
  | null => exact absurd (ht.2 rfl) (by decide)
  | _ => exact absurd (ht.1 nofun) nofun

theorem HasConstants.ne_null (hm : HasConstants m.heap) (hp : m.heap.obj? p = none) :
    p ≠ schemeNull := by
  rintro rfl
  obtain ⟨t, ht, -⟩ := hm.null
  rw [ht] at hp
  cases hp

/-! ## Results

What the analysis may return, and what it has then done to the memory. -/

/-- The type after it has been set. -/
theorem type?_modify {o : Obj} (ho : m.heap.obj? p = some o) :
    (m.modify p fun o => { o with type := t }).heap.type? p = some t :=
  Heap.type?_of_obj? (Memory.obj?_modify_self ho)

/-- A new expression. -/
theorem Outcome.push (hm : HasConstants m.heap) (h : Effect w m m')
    (hw : w ↔ ComesToEmpty ext .datum d) (ht : t.IsExpr) (u : Payload) :
    Outcome ext d m m'.fresh (m'.push ⟨t, u⟩) where
  effect := (h.push _).congr hw
  result := .inl ⟨t, Heap.type?_of_obj? Memory.obj?_push_fresh, ht⟩
  null hnull := by
    obtain ⟨o, ho⟩ := h.obj hm hm.null.choose_spec.1
    exact absurd hnull.symm (Memory.ne_fresh ho)

theorem Outcome.void (h : Effect w m m') (hw : w ↔ ComesToEmpty ext .datum d) :
    Outcome ext d m schemeVoid m' where
  effect := h.congr hw
  result := .inr (.inl rfl)
  null hnull := absurd hnull (by decide)

/-- A new sequence, or the empty one, with its type. -/
theorem Outcome.retype {empty : Prop} {o : Obj} (h : Effect w m m') (hr : NewOrEmpty m empty r)
    (ho : m'.heap.obj? r = some o) (ht : t.IsExpr) (hm : HasConstants m.heap)
    (hw : empty ∨ w ↔ ComesToEmpty ext .datum d)
    (hnull : empty → ∃ a k, d = .pair a .null ∧ a.HasKeyword ext k ∧ (k.IsTail ∨ k = .cond)) :
    Outcome ext d m r (m'.modify r fun o => { o with type := t }) where
  effect := by
    rcases hr with ⟨hempty, rfl⟩ | ⟨hempty, hnew⟩
    · exact h.retype ht (hw.mp (.inl hempty))
    · refine (h.modify hnew).congr ?_
      rw [← hw]
      exact ⟨.inr, fun hor => hor.resolve_left hempty⟩
  result := .inl ⟨t, type?_modify ho, ht⟩
  null hr' := by
    rcases hr with ⟨hempty, -⟩ | ⟨-, hnew⟩
    · exact .inr (hnull hempty)
    · obtain ⟨u, hu, -⟩ := hm.null
      rw [hr', hu] at hnew
      cases hnew

/-! ## Sequences -/

/-- The result of a loop that ends: the first new pair, or `schemeNull` if there was none. -/
theorem NewOrEmpty.of_result (hm : HasConstants m.heap)
    (hp : p = schemeNull ∨ m.heap.obj? p = none) :
    NewOrEmpty m (p = schemeNull ∧ Datum.null = .null) p := by
  rcases hp with rfl | hp
  · exact .inl ⟨⟨rfl, rfl⟩, rfl⟩
  · exact .inr ⟨fun h => hm.ne_null hp h.1, hp⟩

theorem NewOrEmpty.weaken {empty empty' : Prop} (h : NewOrEmpty m empty p) (hempty : ¬empty)
    (hempty' : ¬empty') : NewOrEmpty m empty' p :=
  .inr ⟨hempty', (h.resolve_left fun h => hempty h.1).2⟩

/-- Elements come to an empty sequence where one of them does. -/
theorem comesToEmpty_elems : ComesToEmpty ext .elems (.pair a b) ↔
    ComesToEmpty ext .datum a ∨ ComesToEmpty ext .elems b := by
  constructor
  · intro h
    cases h with
    | elemsHead h => exact .inl h
    | elemsTail h => exact .inr h
  · exact fun h => h.elim .elemsHead .elemsTail

/-- The loop over the elements: the list so far is new, or there is none yet. -/
theorem AnalysisSpec.elements_succ (ih : AnalysisSpec ext n) (hm : HasConstants m₀.heap)
    (h : Shows m₀.heap d p) (heff : Effect w m₀ m) {expr : Ptr}
    (hexpr : expr = schemeNull ∨ m₀.heap.obj? expr = none ∧ m₀.heap.obj? q = none) :
    Ensures (analyzeElements ext (n + 1) expr q p) m fun r m' =>
      Effect (w ∨ ComesToEmpty ext .elems d) m₀ m' ∧
        NewOrEmpty m₀ (expr = schemeNull ∧ d = .null) r := by
  rw [analyzeElements]
  refine .ite (fun hp => ?_) fun hp => ?_
  · obtain rfl := (h.eq_null_iff hm).mp hp
    refine .of_pure ⟨heff.congr ⟨.inl, fun hor => hor.resolve_right nofun⟩, ?_⟩
    exact NewOrEmpty.of_result hm (hexpr.imp_right And.left)
  · refine .bind (ensures_car hm h heff) ?_
    rintro x m₁ ⟨rfl, a, b, y, rfl, hcell⟩
    refine .bind (ih.analyze (heff.constants hm) (hcell.car.effect hm heff)) ?_
    rintro v m₂ ⟨hv, -, -⟩
    have heff₂ := heff.trans hv
    refine .run_bind run_schemeMakePair ?_
    have hpush := heff₂.push ⟨.pair, .pair v (some schemeNull)⟩
    have hfresh := heff₂.fresh hm
    have hw : (w ∨ ComesToEmpty ext .datum a) ∨ ComesToEmpty ext .elems b ↔
        w ∨ ComesToEmpty ext .elems (.pair a b) := by
      rw [comesToEmpty_elems, or_assoc]
    refine .ite (fun hnull => ?_) fun hnull => ?_
    · refine .run_bind (hcell.run_schemeCdr hpush)
        ((ih.elements hm hcell.cdr hpush (.inr ⟨hfresh, hfresh⟩)).mono ?_)
      rintro r m₃ ⟨heff₃, hr⟩
      exact ⟨heff₃.congr hw, hr.weaken (fun h => hm.ne_null hfresh h.1) nofun⟩
    · obtain ⟨hexpr, hq⟩ := hexpr.resolve_left hnull
      refine .bind (ensures_schemeSetCdr (Q := fun _ m' => Effect _ m₀ m')
        fun a => hpush.modify hq) ?_
      rintro ⟨⟩ m₃ hset
      refine .run_bind (hcell.run_schemeCdr hset)
        ((ih.elements hm hcell.cdr hset (.inr ⟨hexpr, hfresh⟩)).mono ?_)
      rintro r m₄ ⟨heff₄, hr⟩
      exact ⟨heff₄.congr hw, hr.weaken (fun h => hnull h.1) nofun⟩

/-- A sequence, with its type. -/
theorem AnalysisSpec.sequence_succ (ih : AnalysisSpec ext n) (hm : HasConstants m.heap)
    (h : Shows m.heap d p) : Ensures (analyzeSequence ext (n + 1) p) m fun r m' =>
      Effect (d = .null ∨ ComesToEmpty ext .elems d) m m' ∧ NewOrEmpty m (d = .null) r := by
  rw [analyzeSequence]
  refine .bind (ih.elements hm h (.refl not_false) (.inl rfl)) ?_
  rintro r m₁ ⟨heff, hr⟩
  have hr' : NewOrEmpty m (d = .null) r := by
    rcases hr with ⟨⟨-, hd⟩, hr⟩ | ⟨hd, hr⟩
    · exact .inl ⟨hd, hr⟩
    · exact .inr ⟨fun h => hd ⟨rfl, h⟩, hr⟩
  refine .bind (ensures_schemeSetType (Q := fun _ m' => Effect _ m m') fun o ho => ?_)
    fun _ m₂ heff₂ => .of_pure ⟨heff₂, hr'⟩
  rcases hr' with ⟨hd, rfl⟩ | ⟨hd, hnew⟩
  · exact heff.retype (by decide) (.inl hd)
  · refine (heff.modify hnew).congr ?_
    rw [false_or]
    exact ⟨.inr, fun hor => hor.resolve_left hd⟩

/-! ## What the operands come to -/

/-- A word is the name of one keyword at most. -/
theorem Datum.HasKeyword.unique {k k' : Keyword} (h : a.HasKeyword ext k)
    (h' : a.HasKeyword ext k') : k = k' := by
  cases a with
  | symbol name => exact Option.some.inj (h.symm.trans h')
  | _ => exact h.elim

/-- What has a keyword is no operator. -/
theorem Datum.HasKeyword.not_headsApplication {k : Keyword} (h : a.HasKeyword ext k) :
    ¬a.HeadsApplication ext := by
  cases a with
  | symbol name =>
    intro h'
    cases h.symm.trans h'
  | _ => exact h.elim

/-- What the operands `b` of a keyword come to. -/
def OperandsCome (ext : Externals) : Keyword → Datum → Prop
  | .and, b | .begin, b | .or, b => b = .null ∨ ComesToEmpty ext .elems b
  | .cond, b => b = .null ∨ ComesToEmpty ext .clauses b
  | .define, b =>
    (∃ name e rest, b = .pair (.symbol name) (.pair e rest) ∧ ComesToEmpty ext .datum e) ∨
      ∃ f vars body, b = .pair (.pair f vars) body ∧ (body = .null ∨ ComesToEmpty ext .elems body)
  | .if, b => ∃ e₁ r₁, b = .pair e₁ r₁ ∧ (ComesToEmpty ext .datum e₁ ∨
      ∃ e₂ r₂, r₁ = .pair e₂ r₂ ∧ (ComesToEmpty ext .datum e₂ ∨
        ∃ e₃, r₂ = .pair e₃ .null ∧ ComesToEmpty ext .datum e₃))
  | .lambda, b => ∃ vars body, b = .pair vars body ∧ (body = .null ∨ ComesToEmpty ext .elems body)
  | .set, b =>
    ∃ name e rest, b = .pair (.symbol name) (.pair e rest) ∧ ComesToEmpty ext .datum e
  | .case, _ | .delay, _ | .do, _ | .else, _ | .let, _ | .letrec, _ | .letStar, _
  | .quasiquote, _ | .quote, _ => False

/-- In an application the operator counts as an element. -/
theorem comesToEmpty_application (ha : a.HeadsApplication ext) :
    ComesToEmpty ext .datum (.pair a b) ↔ ComesToEmpty ext .elems (.pair a b) := by
  refine ⟨fun h => ?_, .application ha⟩
  cases h with
  | application _ h => exact h
  | tailNil hk | tail hk | cond hk | defvar hk | defunNil hk | defun hk | ifPred hk | ifCseq hk
  | ifAlter hk | lambdaNil hk | lambda hk | set hk => exact absurd ha hk.not_headsApplication

/-- What a form comes to is told by its keyword and the operands. -/
theorem comesToEmpty_keyword {k : Keyword} (hk : a.HasKeyword ext k) :
    ComesToEmpty ext .datum (.pair a b) ↔ OperandsCome ext k b := by
  constructor
  · intro h
    cases h with
    | application ha => exact absurd ha hk.not_headsApplication
    | tailNil hk' hor =>
      obtain rfl := hk.unique hk'
      rcases hor with (rfl | rfl | rfl) | rfl <;> exact .inl rfl
    | tail hk' hor h =>
      obtain rfl := hk.unique hk'
      rcases hor with rfl | rfl | rfl <;> exact .inr h
    | cond hk' h =>
      obtain rfl := hk.unique hk'
      exact .inr h
    | defvar hk' h =>
      obtain rfl := hk.unique hk'
      exact .inl ⟨_, _, _, rfl, h⟩
    | defunNil hk' =>
      obtain rfl := hk.unique hk'
      exact .inr ⟨_, _, _, rfl, .inl rfl⟩
    | defun hk' h =>
      obtain rfl := hk.unique hk'
      exact .inr ⟨_, _, _, rfl, .inr h⟩
    | ifPred hk' h =>
      obtain rfl := hk.unique hk'
      exact ⟨_, _, rfl, .inl h⟩
    | ifCseq hk' h =>
      obtain rfl := hk.unique hk'
      exact ⟨_, _, rfl, .inr ⟨_, _, rfl, .inl h⟩⟩
    | ifAlter hk' h =>
      obtain rfl := hk.unique hk'
      exact ⟨_, _, rfl, .inr ⟨_, _, rfl, .inr ⟨_, rfl, h⟩⟩⟩
    | lambdaNil hk' =>
      obtain rfl := hk.unique hk'
      exact ⟨_, _, rfl, .inl rfl⟩
    | lambda hk' h =>
      obtain rfl := hk.unique hk'
      exact ⟨_, _, rfl, .inr h⟩
    | set hk' h =>
      obtain rfl := hk.unique hk'
      exact ⟨_, _, _, rfl, h⟩
  · intro h
    have htail : k.IsTail → b = .null ∨ ComesToEmpty ext .elems b →
        ComesToEmpty ext .datum (.pair a b) := by
      rintro htail (rfl | h)
      · exact .tailNil hk (.inl htail)
      · exact .tail hk htail h
    cases k with
    | and => exact htail (.inl rfl) h
    | begin => exact htail (.inr (.inl rfl)) h
    | or => exact htail (.inr (.inr rfl)) h
    | cond =>
      rcases h with rfl | h
      · exact .tailNil hk (.inr rfl)
      · exact .cond hk h
    | define =>
      rcases h with ⟨name, e, rest, rfl, h⟩ | ⟨f, vars, body, rfl, rfl | h⟩
      · exact .defvar hk h
      · exact .defunNil hk
      · exact .defun hk h
    | «if» =>
      obtain ⟨e₁, r₁, rfl, h | ⟨e₂, r₂, rfl, h | ⟨e₃, rfl, h⟩⟩⟩ := h
      · exact .ifPred hk h
      · exact .ifCseq hk h
      · exact .ifAlter hk h
    | lambda =>
      obtain ⟨vars, body, rfl, rfl | h⟩ := h
      · exact .lambdaNil hk
      · exact .lambda hk h
    | set =>
      obtain ⟨name, e, rest, rfl, h⟩ := h
      exact .set hk h
    | case | delay | «do» | «else» | «let» | letrec | letStar | quasiquote | quote => exact h.elim

/-- Each part of an `if` may come to an empty sequence. -/
theorem comesToEmpty_if {e₁ e₂ c : Datum} (hk : a.HasKeyword ext .if) :
    ComesToEmpty ext .datum (.pair a (.pair e₁ (.pair e₂ c))) ↔
      ComesToEmpty ext .datum e₁ ∨ ComesToEmpty ext .datum e₂ ∨
        ∃ e₃, c = .pair e₃ .null ∧ ComesToEmpty ext .datum e₃ := by
  rw [comesToEmpty_keyword hk, OperandsCome]
  constructor
  · rintro ⟨_, _, heq, h | ⟨_, _, heq', h⟩⟩
    · cases heq
      exact .inl h
    · cases heq
      cases heq'
      exact .inr h
  · rintro (h | h)
    · exact ⟨_, _, rfl, .inl h⟩
    · exact ⟨_, _, rfl, .inr ⟨_, _, rfl, h⟩⟩

/-! ## Forms

The step of the induction on the fuel, for each function of the analysis. -/

theorem AnalysisSpec.application_succ (ih : AnalysisSpec ext n) (hm : HasConstants m.heap)
    (h : Shows m.heap (.pair a b) p) (ha : a.HeadsApplication ext) :
    Ensures (analyzeApplication ext (n + 1) p) m (Outcome ext (.pair a b) m) := by
  rw [analyzeApplication]
  refine .bind (ih.sequence hm h) ?_
  rintro r m₁ ⟨heff, hr⟩
  refine .bind (ensures_schemeSetType (Q := fun _ m' => Outcome ext _ m r m') fun o ho => ?_)
    fun _ m₂ hout => .of_pure hout
  refine .retype heff hr ho (by decide) hm ?_ nofun
  rw [comesToEmpty_application ha]
  exact ⟨fun hor => hor.elim nofun fun hor => hor.resolve_left nofun, fun h => .inr (.inr h)⟩

theorem AnalysisSpec.tail_succ {k : Keyword} (ih : AnalysisSpec ext n) (hm : HasConstants m.heap)
    (h : Shows m.heap (.pair a b) p) (hk : a.HasKeyword ext k) (htail : k.IsTail) (ht : t.IsExpr) :
    Ensures (analyzeTail ext (n + 1) t p) m (Outcome ext (.pair a b) m) := by
  rw [analyzeTail]
  refine .bind (ensures_schemeCdr h hm) ?_
  rintro q m₁ ⟨rfl, a', b', heq, hb⟩
  cases heq
  refine .bind (ih.sequence hm hb) ?_
  rintro r m₂ ⟨heff, hr⟩
  refine .bind (ensures_schemeSetType (Q := fun _ m' => Outcome ext _ m₁ r m') fun o ho => ?_)
    fun _ m₂ hout => .of_pure hout
  refine .retype heff hr ho ht hm ?_ ?_
  · rw [comesToEmpty_keyword hk]
    have hcome : OperandsCome ext k b ↔ b = .null ∨ ComesToEmpty ext .elems b := by
      rcases htail with rfl | rfl | rfl <;> rfl
    rw [hcome]
    exact ⟨fun hor => hor.elim .inl id, .inr⟩
  · rintro rfl
    exact ⟨a, k, rfl, hk, .inl htail⟩

/-- So do a clause without a body, and one with such a test or body. -/
theorem comesToEmpty_clauses {c : Datum} : ComesToEmpty ext .clauses (.pair (.pair a b) c) ↔
    ComesToEmpty ext .datum a ∨ (b = .null ∨ ComesToEmpty ext .elems b) ∨
      ComesToEmpty ext .clauses c := by
  constructor
  · intro h
    cases h with
    | clauseTest h => exact .inl h
    | clauseNil => exact .inr (.inl (.inl rfl))
    | clauseBody h => exact .inr (.inl (.inr h))
    | clausesTail h => exact .inr (.inr h)
  · rintro (h | (rfl | h) | h)
    · exact .clauseTest h
    · exact .clauseNil
    · exact .clauseBody h
    · exact .clausesTail h

/-- The loop over the clauses, with the list so far. -/
theorem AnalysisSpec.clauses_succ (ih : AnalysisSpec ext n) (hm : HasConstants m₀.heap)
    (h : Shows m₀.heap d p) (heff : Effect w m₀ m) {expr s : Ptr}
    (hexpr : expr = schemeNull ∨ m₀.heap.obj? expr = none ∧ m₀.heap.obj? s = none) :
    Ensures (analyzeClauses ext (n + 1) expr s p) m fun r m' =>
      Effect (w ∨ ComesToEmpty ext .clauses d) m₀ m' ∧
        NewOrEmpty m₀ (expr = schemeNull ∧ d = .null) r := by
  rw [analyzeClauses]
  refine .ite (fun hp => ?_) fun hp => ?_
  · obtain rfl := (h.eq_null_iff hm).mp hp
    refine .of_pure ⟨heff.congr ⟨.inl, fun hor => hor.resolve_right nofun⟩, ?_⟩
    exact NewOrEmpty.of_result hm (hexpr.imp_right And.left)
  · refine .bind (ensures_car hm h heff) ?_
    rintro c m₁ ⟨rfl, clause, rest, y, rfl, hcell⟩
    refine .bind (ensures_car hm hcell.car heff) ?_
    rintro x m₂ ⟨rfl, a, body, z, rfl, hclause⟩
    refine .bind (ih.analyze (heff.constants hm) (hclause.car.effect hm heff)) ?_
    rintro v m₃ ⟨hv, -, -⟩
    have heff₃ := heff.trans hv
    refine .run_bind (hclause.run_schemeCdr heff₃) (.bind (ih.sequence (heff₃.constants hm)
      (hclause.cdr.effect hm heff₃)) ?_)
    rintro s' m₄ ⟨hs, -⟩
    have heff₄ := heff₃.trans hs
    refine .run_bind run_schemeMakePair ?_
    have hpair := heff₄.push ⟨.pair, .pair v (some s')⟩
    refine .run_bind run_schemeMakePair ?_
    have hpush := hpair.push ⟨.pair, .pair m₄.fresh (some schemeNull)⟩
    have hfresh := hpair.fresh hm
    have hw : ((w ∨ ComesToEmpty ext .datum a) ∨ (body = .null ∨ ComesToEmpty ext .elems body)) ∨
        ComesToEmpty ext .clauses rest ↔
          w ∨ ComesToEmpty ext .clauses (.pair (.pair a body) rest) := by
      rw [comesToEmpty_clauses, or_assoc, or_assoc]
    refine .ite (fun hnull => ?_) fun hnull => ?_
    · refine .run_bind (hcell.run_schemeCdr hpush)
        ((ih.clauses hm hcell.cdr hpush (.inr ⟨hfresh, hfresh⟩)).mono ?_)
      rintro r m₅ ⟨heff₅, hr⟩
      exact ⟨heff₅.congr hw, hr.weaken (fun h => hm.ne_null hfresh h.1) nofun⟩
    · obtain ⟨hexpr, hq⟩ := hexpr.resolve_left hnull
      refine .bind (ensures_schemeSetCdr (Q := fun _ m' => Effect _ m₀ m')
        fun a => hpush.modify hq) ?_
      rintro ⟨⟩ m₅ hset
      refine .run_bind (hcell.run_schemeCdr hset)
        ((ih.clauses hm hcell.cdr hset (.inr ⟨hexpr, hfresh⟩)).mono ?_)
      rintro r m₆ ⟨heff₆, hr⟩
      exact ⟨heff₆.congr hw, hr.weaken (fun h => hnull h.1) nofun⟩

theorem AnalysisSpec.cond_succ (ih : AnalysisSpec ext n) (hm : HasConstants m.heap)
    (h : Shows m.heap (.pair a b) p) (hk : a.HasKeyword ext .cond) :
    Ensures (analyzeCond ext (n + 1) p) m (Outcome ext (.pair a b) m) := by
  rw [analyzeCond]
  obtain ⟨x, y, hcell⟩ := h.cell hm
  have hrefl : Effect False m m := .refl not_false
  refine .run_bind (hcell.run_schemeCdr hrefl)
    (.bind (ih.clauses hm hcell.cdr hrefl (.inl rfl)) ?_)
  rintro r m₁ ⟨heff, hr⟩
  refine .bind (ensures_schemeSetType (Q := fun _ m' => Outcome ext _ m r m') fun o ho => ?_)
    fun _ m₂ hout => .of_pure hout
  refine .retype heff hr ho (by decide) hm ?_ ?_
  · rw [comesToEmpty_keyword hk, OperandsCome, false_or]
    simp only [true_and]
  · rintro ⟨-, rfl⟩
    exact ⟨a, .cond, rfl, hk, .inr rfl⟩

/-- A definition, of a variable or of a procedure. -/
theorem AnalysisSpec.definition_succ (ih : AnalysisSpec ext n) (hm : HasConstants m.heap)
    (h : Shows m.heap (.pair a b) p) (hk : a.HasKeyword ext .define) :
    Ensures (analyzeDefinition ext (n + 1) p) m (Outcome ext (.pair a b) m) := by
  rw [analyzeDefinition]
  obtain ⟨x, y, hcell⟩ := h.cell hm
  have hrefl : Effect False m m := .refl not_false
  refine .run_bind (hcell.run_schemeCdr hrefl) (.bind (ensures_car hm hcell.cdr hrefl) ?_)
  rintro q m₁ ⟨rfl, head, rest, z, rfl, hrest⟩
  refine .bind (ensures_type hm hrest.car hrefl) ?_
  rintro t m₂ ⟨rfl, ht, htnull⟩
  cases head with
  | symbol name =>
    obtain rfl := ht nofun
    refine .run_bind (hrest.run_schemeCdr hrefl) (.bind (ensures_car hm hrest.cdr hrefl) ?_)
    rintro u m₃ ⟨rfl, e, rest', z', rfl, he⟩
    refine .bind (ih.analyze hm he.car) ?_
    rintro v m₄ ⟨hv, -, -⟩
    refine .of_run run_schemeAllocObj (.push hm hv ?_ (by decide) _)
    rw [comesToEmpty_keyword hk, OperandsCome]
    constructor
    · exact fun h => .inl ⟨name, e, rest', rfl, h⟩
    · rintro (⟨_, _, _, heq, h⟩ | ⟨_, _, _, heq, -⟩)
      · cases heq
        exact h
      · cases heq
  | pair f vars =>
    obtain rfl := ht nofun
    obtain ⟨xf, xv, hhead⟩ := hrest.car.cell hm
    refine .run_bind (hhead.run_schemeCar hrefl) (.run_bind (hhead.run_schemeCdr hrefl)
      (.run_bind (hrest.run_schemeCdr hrefl) (.bind (ih.sequence hm hrest.cdr) ?_)))
    rintro s m₃ ⟨heff, -⟩
    refine .run_bind run_schemeMakePair
      (.of_run run_schemeAllocObj (.push hm (heff.push _) ?_ (by decide) _))
    rw [comesToEmpty_keyword hk, OperandsCome]
    constructor
    · exact fun h => .inr ⟨f, vars, rest, rfl, h⟩
    · rintro (⟨_, _, _, heq, -⟩ | ⟨_, _, _, heq, h⟩)
      · cases heq
      · cases heq
        exact h
  | null =>
    rcases htnull rfl with rfl | hexpr
    · exact .of_failure
    · cases t <;> first | exact .of_failure | exact absurd hexpr (by decide)
  | void | bool | int | char | string | vector =>
    obtain rfl := ht nofun
    exact .of_failure

theorem AnalysisSpec.lambda_succ (ih : AnalysisSpec ext n) (hm : HasConstants m.heap)
    (h : Shows m.heap (.pair a b) p) (hk : a.HasKeyword ext .lambda) :
    Ensures (analyzeLambda ext (n + 1) p) m (Outcome ext (.pair a b) m) := by
  rw [analyzeLambda]
  obtain ⟨x, y, hcell⟩ := h.cell hm
  have hrefl : Effect False m m := .refl not_false
  refine .run_bind (hcell.run_schemeCdr hrefl) (.bind (ensures_car hm hcell.cdr hrefl) ?_)
  rintro q m₁ ⟨rfl, vars, body, z, rfl, hrest⟩
  refine .run_bind (hrest.run_schemeCdr hrefl) (.bind (ih.sequence hm hrest.cdr) ?_)
  rintro s m₂ ⟨heff, -⟩
  refine .of_run run_schemeAllocObj (.push hm heff ?_ (by decide) _)
  rw [comesToEmpty_keyword hk, OperandsCome]
  constructor
  · exact fun h => ⟨vars, body, rfl, h⟩
  · rintro ⟨_, _, heq, h⟩
    cases heq
    exact h

theorem AnalysisSpec.assignment_succ (ih : AnalysisSpec ext n) (hm : HasConstants m.heap)
    (h : Shows m.heap (.pair a b) p) (hk : a.HasKeyword ext .set) :
    Ensures (analyzeAssignment ext (n + 1) p) m (Outcome ext (.pair a b) m) := by
  rw [analyzeAssignment]
  obtain ⟨x, y, hcell⟩ := h.cell hm
  have hrefl : Effect False m m := .refl not_false
  refine .run_bind (hcell.run_schemeCdr hrefl) (.bind (ensures_car hm hcell.cdr hrefl) ?_)
  rintro q m₁ ⟨rfl, var, rest, z, rfl, hrest⟩
  refine .bind (ensures_type hm hrest.car hrefl) ?_
  rintro t m₂ ⟨rfl, ht⟩
  refine .ite (fun hsymbol => .of_pure (.void hrefl ?_)) fun hsymbol => ?_
  · rw [comesToEmpty_keyword hk, OperandsCome, false_iff]
    rintro ⟨name, e, rest', heq, -⟩
    cases heq
    exact hsymbol (ht.1 nofun)
  · obtain ⟨name, rfl⟩ := Datum.eq_symbol_of_type ht (not_not.mp hsymbol)
    refine .run_bind (hrest.run_schemeCdr hrefl) (.bind (ensures_car hm hrest.cdr hrefl) ?_)
    rintro u m₃ ⟨rfl, e, rest', z', rfl, he⟩
    refine .bind (ih.analyze hm he.car) ?_
    rintro v m₄ ⟨hv, -, -⟩
    refine .of_run run_schemeAllocObj (.push hm hv ?_ (by decide) _)
    rw [comesToEmpty_keyword hk, OperandsCome]
    constructor
    · exact fun h => ⟨name, e, rest', rfl, h⟩
    · rintro ⟨_, _, _, heq, h⟩
      cases heq
      exact h

/-- The last step of an `if`. -/
theorem ensures_makeIf {pred cseq alter : Ptr} (hm : HasConstants m.heap) (h : Effect w m m')
    (hw : w ↔ ComesToEmpty ext .datum d) :
    Ensures (makeIf pred cseq alter) m' (Outcome ext d m) := by
  rw [makeIf]
  refine .ite (fun _ => .of_pure (.void h hw)) fun _ => ?_
  exact .run_bind run_schemeMakePair
    (.of_run run_schemeAllocObj (.push hm (h.push _) hw (by decide) _))

theorem AnalysisSpec.if_succ (ih : AnalysisSpec ext n) (hm : HasConstants m.heap)
    (h : Shows m.heap (.pair a b) p) (hk : a.HasKeyword ext .if) :
    Ensures (analyzeIf ext (n + 1) p) m (Outcome ext (.pair a b) m) := by
  rw [analyzeIf]
  obtain ⟨x, y, hcell⟩ := h.cell hm
  have hrefl : Effect False m m := .refl not_false
  refine .run_bind (hcell.run_schemeCdr hrefl) (.bind (ensures_type hm hcell.cdr hrefl) ?_)
  rintro t m₁ ⟨rfl, ht⟩
  refine .ite (fun hpair => ?_) fun hpair => .of_pure (.void hrefl ?_)
  · obtain ⟨e₁, r₁, rfl⟩ := Datum.eq_pair_of_type ht hpair
    obtain ⟨x₁, y₁, hcell₁⟩ := hcell.cdr.cell hm
    refine .run_bind (hcell₁.run_schemeCar hrefl) (.bind (ih.analyze hm hcell₁.car) ?_)
    rintro pred m₂ ⟨hpred, -, -⟩
    refine .run_bind (hcell₁.run_schemeCdr hpred) (.bind (ensures_type hm hcell₁.cdr hpred) ?_)
    rintro t₁ m₃ ⟨rfl, ht₁⟩
    refine .ite (fun hpair₁ => ?_) fun hpair₁ => ?_
    · obtain ⟨e₂, r₂, rfl⟩ := Datum.eq_pair_of_type ht₁ hpair₁
      obtain ⟨x₂, y₂, hcell₂⟩ := hcell₁.cdr.cell hm
      refine .run_bind (hcell₂.run_schemeCar hpred)
        (.bind (ih.analyze (hpred.constants hm) (hcell₂.car.effect hm hpred)) ?_)
      rintro cseq m₄ ⟨hcseq, -, -⟩
      have heff := hpred.trans hcseq
      refine .run_bind (hcell₂.run_schemeCdr heff) (.bind (ensures_type hm hcell₂.cdr heff) ?_)
      rintro t₂ m₅ ⟨rfl, ht₂⟩
      refine .ite (fun hpair₂ => ?_) fun hpair₂ => ?_
      · obtain ⟨e₃, r₃, rfl⟩ := Datum.eq_pair_of_type ht₂ hpair₂
        obtain ⟨x₃, y₃, hcell₃⟩ := hcell₂.cdr.cell hm
        refine .run_bind (hcell₃.run_schemeCdr heff)
          (.ite (fun hnull => .of_pure (.void heff ?_)) fun hnull => ?_)
        · rw [comesToEmpty_if hk]
          refine or_congr_right (or_iff_left ?_).symm
          rintro ⟨_, heq, -⟩
          cases heq
          exact hnull ((hcell₃.cdr.eq_null_iff hm).mpr rfl)
        · obtain rfl := (hcell₃.cdr.eq_null_iff hm).mp (not_not.mp hnull)
          refine .run_bind (hcell₃.run_schemeCar heff)
            (.bind (ih.analyze (heff.constants hm) (hcell₃.car.effect hm heff)) ?_)
          rintro alter m₆ ⟨halter, -, -⟩
          refine ensures_makeIf hm (heff.trans halter) ?_
          rw [comesToEmpty_if hk, or_assoc]
          refine or_congr_right (or_congr_right ⟨fun h => ⟨e₃, rfl, h⟩, ?_⟩)
          rintro ⟨_, heq, h⟩
          cases heq
          exact h
      · have hw : ComesToEmpty ext .datum e₁ ∨ ComesToEmpty ext .datum e₂ ↔
            ComesToEmpty ext .datum (.pair a (.pair e₁ (.pair e₂ r₂))) := by
          rw [comesToEmpty_if hk]
          refine or_congr_right (or_iff_left ?_).symm
          rintro ⟨_, rfl, -⟩
          exact hpair₂ (ht₂.1 nofun)
        exact .ite (fun _ => ensures_makeIf hm heff hw) fun _ => .of_pure (.void heff hw)
    · refine .ite (fun _ => .of_failure) fun _ => .of_pure (.void hpred ?_)
      rw [comesToEmpty_keyword hk, OperandsCome]
      constructor
      · exact fun h => ⟨e₁, r₁, rfl, .inl h⟩
      · rintro ⟨_, _, heq, h | ⟨_, _, rfl, -⟩⟩
        · cases heq
          exact h
        · cases heq
          exact absurd (ht₁.1 nofun) hpair₁
  · rw [comesToEmpty_keyword hk, OperandsCome, false_iff]
    rintro ⟨_, _, rfl, -⟩
    exact hpair (ht.1 nofun)

/-- The handler of a keyword. -/
theorem AnalysisSpec.keyword_succ {k : Keyword} (ih : AnalysisSpec ext n) (hm : HasConstants m.heap)
    (h : Shows m.heap (.pair a b) p) (hk : a.HasKeyword ext k) :
    Ensures (analyzeKeyword ext (n + 1) k p) m (Outcome ext (.pair a b) m) := by
  have hrefl : Effect False m m := .refl not_false
  have hw : ¬OperandsCome ext k b → (False ↔ ComesToEmpty ext .datum (.pair a b)) := by
    intro h
    rw [comesToEmpty_keyword hk]
    exact ⟨False.elim, h⟩
  cases k with
  | and => exact ih.tail hm h hk (.inl rfl) (by decide)
  | begin => exact ih.tail hm h hk (.inr (.inl rfl)) (by decide)
  | or => exact ih.tail hm h hk (.inr (.inr rfl)) (by decide)
  | cond => exact ih.cond hm h hk
  | define => exact ih.definition hm h hk
  | «else» =>
    exact .of_pure ⟨hrefl.congr (hw not_false), .inr (.inr ⟨rfl, a, b, rfl, hk⟩),
      fun hnull => absurd hnull (by decide)⟩
  | «if» => exact ih.ifForm hm h hk
  | lambda => exact ih.lambda hm h hk
  | quote =>
    rw [analyzeKeyword, analyzeQuoted]
    obtain ⟨x, y, hcell⟩ := h.cell hm
    refine .run_bind (hcell.run_schemeCdr hrefl) (.bind (ensures_car hm hcell.cdr hrefl) ?_)
    rintro q m₁ ⟨rfl, -⟩
    exact .of_run run_schemeAllocObj (.push hm hrefl (hw not_false) (by decide) _)
  | set => exact ih.assignment hm h hk
  | case | delay | «do» | «let» | letrec | letStar | quasiquote => exact .of_failure

/-- The analysis of a datum, from that of its parts. -/
theorem AnalysisSpec.analyze_succ (ih : AnalysisSpec ext n) (hm : HasConstants m.heap)
    (h : Shows m.heap d p) : Ensures (SchemeOs.analyze ext (n + 1) p) m (Outcome ext d m) := by
  rw [SchemeOs.analyze]
  have hrefl : Effect False m m := .refl not_false
  have hpush : ∀ {t u}, t.IsExpr → (False ↔ ComesToEmpty ext .datum d) →
      Ensures (schemeAllocObj ⟨t, u⟩) m (Outcome ext d m) := fun ht hw =>
    .of_run run_schemeAllocObj (.push hm hrefl hw ht _)
  have hatom : (∀ a b, d ≠ .pair a b) → (False ↔ ComesToEmpty ext .datum d) := by
    refine fun hd => ⟨False.elim, fun h => ?_⟩
    cases h <;> exact hd _ _ rfl
  by_cases hd : d = .null
  · subst hd
    obtain rfl : p = schemeNull := h
    obtain ⟨t, ht, hor⟩ := hm.null
    have htype := Heap.type?_of_obj? ht
    refine .run_bind (run_schemeType htype) ?_
    rcases hor with rfl | hexpr
    · exact hpush (by decide) (hatom nofun)
    · rw [if_pos hexpr]
      exact .of_pure ⟨hrefl.congr (hatom nofun), .inl ⟨t, htype, hexpr⟩, fun _ => .inl rfl⟩
  · refine .run_bind (run_schemeType (h.type hm hd)) ?_
    cases d with
    | null => exact absurd rfl hd
    | void => exact .of_pure (.void hrefl (hatom nofun))
    | bool | int | char | string | vector | symbol => exact hpush (by decide) (hatom nofun)
    | pair a b =>
      obtain ⟨x, y, hcell⟩ := h.cell hm
      refine .run_bind (hcell.run_schemeCar hrefl) (.bind (ensures_type hm hcell.car hrefl) ?_)
      rintro t m₁ ⟨rfl, ht, htnull⟩
      have hvoid : (∀ k, ¬a.HasKeyword ext k) → ¬a.HeadsApplication ext →
          Ensures (pure schemeVoid) m₁ (Outcome ext (.pair a b) m₁) := by
        refine fun hkey happ => .of_pure (.void hrefl ⟨False.elim, fun h => ?_⟩)
        cases h with
        | application ha => exact happ ha
        | tailNil hk | tail hk | cond hk | defvar hk | defunNil hk | defun hk | ifPred hk
        | ifCseq hk | ifAlter hk | lambdaNil hk | lambda hk | set hk => exact hkey _ hk
      cases a with
      | symbol name =>
        obtain rfl := ht nofun
        refine .run_bind (run_schemeSymbolVal (hcell.car.symbolVal)) ?_
        cases hfind : findKeyword ext name with
        | some k => exact ih.keyword hm h hfind
        | none => exact ih.application hm h hfind
      | pair a₁ a₂ =>
        obtain rfl := ht nofun
        exact ih.application hm h trivial
      | null =>
        rcases htnull rfl with rfl | hexpr
        · exact hvoid (fun _ => id) id
        · cases t <;> first | exact hvoid (fun _ => id) id | exact absurd hexpr (by decide)
      | void | bool | int | char | string | vector =>
        obtain rfl := ht nofun
        exact hvoid (fun _ => id) id

/-- **The frame of the analysis.** -/
theorem analysisSpec (ext : Externals) (n : ℕ) : AnalysisSpec ext n := by
  induction n with
  | zero =>
    constructor
    all_goals
      intros
      exact .of_failure
  | succ n ih =>
    exact {
      analyze := ih.analyze_succ
      keyword := ih.keyword_succ
      application := ih.application_succ
      tail := ih.tail_succ
      sequence := ih.sequence_succ
      elements := fun hm h heff hexpr => ih.elements_succ hm h heff hexpr
      cond := ih.cond_succ
      clauses := fun hm h heff hexpr => ih.clauses_succ hm h heff hexpr
      definition := ih.definition_succ
      ifForm := ih.if_succ
      lambda := ih.lambda_succ
      assignment := ih.assignment_succ }

/-! ## The frame -/

/-- **The analysis leaves every object as it was** if it comes to no empty sequence, whatever type
`schemeNull` has been given before. -/
theorem sub_of_not_comesToEmpty (hm : HasConstants m.heap) (h : Shows m.heap d p)
    (hrun : (analyze ext n p).run m = some (r, m')) (hcome : ¬ComesToEmpty ext .datum d) :
    m.heap.Sub m'.heap := by
  obtain ⟨heff, -, -⟩ := (analysisSpec ext n).analyze hm h r m' hrun
  obtain ⟨t, ht, -⟩ := hm.null
  obtain ⟨t', ht', -, hnw, -⟩ := heff.null t ht
  intro q o ho
  by_cases hq : q = schemeNull
  · subst hq
    rw [ht] at ho
    cases ho
    rw [ht', hnw hcome]
  · exact heff.objs q o hq ho

/-- **And only then**, where `schemeNull` has its own type before the call. -/
theorem analyze_sub_iff (hm : HasConstants m.heap) (hnull : m.heap.type? schemeNull = some .null)
    (h : Shows m.heap d p) (hrun : (analyze ext n p).run m = some (r, m')) :
    m.heap.Sub m'.heap ↔ ¬ComesToEmpty ext .datum d := by
  refine ⟨fun hsub hcome => ?_, sub_of_not_comesToEmpty hm h hrun⟩
  obtain ⟨heff, -, -⟩ := (analysisSpec ext n).analyze hm h r m' hrun
  obtain ⟨t, ht, -⟩ := hm.null
  obtain ⟨t', ht', hw, -, -⟩ := heff.null t ht
  obtain rfl : t = .null := Option.some.inj ((Heap.type?_of_obj? ht).symm.trans hnull)
  have heq := Option.some.inj ((hsub _ _ ht).symm.trans ht')
  cases heq
  exact absurd (hw hcome) (by decide)

/-- The objects of `(and)` and, last, of `(and x)`. -/
def andMemory : Memory :=
  { Memory.init with objs := Memory.init.objs ++
    [⟨.symbol, .symbol ['a', 'n', 'd']⟩, ⟨.pair, .pair (.obj 6) (some schemeNull)⟩,
     ⟨.symbol, .symbol ['x']⟩, ⟨.pair, .pair (.obj 8) (some schemeNull)⟩,
     ⟨.pair, .pair (.obj 6) (some (.obj 9))⟩] }

theorem hasConstants_andMemory : HasConstants andMemory.heap :=
  ⟨⟨.null, rfl, .inl rfl⟩, rfl, rfl, rfl⟩

theorem analyze_sub_iff_and : ∃ r m',
    (analyze zeroExternals 7 (.obj 10)).run andMemory = some (r, m') ∧
      (andMemory.heap.Sub m'.heap ↔ ¬ComesToEmpty zeroExternals .datum
        (.pair (.symbol ['a', 'n', 'd']) (.pair (.symbol ['x']) .null))) := by
  obtain ⟨⟨r, m'⟩, hrun⟩ : ∃ x, (analyze zeroExternals 7 (.obj 10)).run andMemory = some x :=
    Option.isSome_iff_exists.mp (by decide +kernel)
  exact ⟨r, m', hrun, analyze_sub_iff hasConstants_andMemory rfl
    ⟨.obj 6, .obj 9, rfl, rfl, .obj 8, schemeNull, rfl, rfl, rfl⟩ hrun⟩

/-- The analysis of `(and)` makes an expression of `schemeNull`. -/
theorem not_analyze_sub : ¬∀ (m m' : Memory) (d : Datum) (n : ℕ) (p r : Ptr),
    HasConstants m.heap → m.heap.type? schemeNull = some .null → Shows m.heap d p →
      (analyze zeroExternals n p).run m = some (r, m') → m.heap.Sub m'.heap := by
  intro h
  obtain ⟨⟨r, m'⟩, hrun, htype⟩ : ∃ x, (analyze zeroExternals 6 (.obj 7)).run andMemory = some x ∧
      x.2.heap.type? schemeNull = some .andExpr := by
    refine ⟨((analyze zeroExternals 6 (.obj 7)).run andMemory).get (by decide +kernel), ?_, ?_⟩
    · exact (Option.some_get _).symm
    · decide +kernel
  have hsub := h andMemory m' (.pair (.symbol ['a', 'n', 'd']) .null) 6 (.obj 7) r
    hasConstants_andMemory rfl ⟨.obj 6, schemeNull, rfl, rfl, rfl⟩ hrun
  have hnull := hsub.type? (p := schemeNull) (t := .null) rfl
  rw [hnull] at htype
  cases htype

end SchemeOs
