import SchemeOs.Interpreter.Forms

/-!
# Interpreter/FormSpec — which data are analyzed at all

Whatever the functions of the analysis return, the datum comes to a form: `ComesTo` leaves out only
data whose analysis does not end, or reads a variable that was never set.
-/

namespace SchemeOs

variable {ext : Externals} {m m' m₀ m₁ : Memory} {d a b : Datum} {p q r x y : Ptr} {w : Prop}
  {n : ℕ} {t : SchemeType}

/-! ## The functions of the analysis

What each function of the analysis tells of its argument, when it ends with a new node. -/

/-- Whatever the computation returns, what it analyzes comes to a form. -/
def Tells (ext : Externals) (s : Analyzed) (d : Datum) (k : Comp Ptr) (m : Memory) : Prop :=
  Ensures k m fun _ _ => ∃ f, ComesTo ext s d f

/-- With the fuel `n` the functions of the analysis return only what comes to a form. -/
structure FormSpec (ext : Externals) (n : ℕ) : Prop where
  analyze {d : Datum} {p : Ptr} {m : Memory} (hm : HasConstants m.heap) (h : Shows m.heap d p) :
    Tells ext .datum d (analyze ext n p) m
  keyword {a b : Datum} {k : Keyword} {p : Ptr} {m : Memory} (hm : HasConstants m.heap)
    (h : Shows m.heap (.pair a b) p) (hk : a.HasKeyword ext k) :
    Tells ext .datum (.pair a b) (analyzeKeyword ext n k p) m
  application {a b : Datum} {p : Ptr} {m : Memory} (hm : HasConstants m.heap)
    (h : Shows m.heap (.pair a b) p) (ha : a.HeadsApplication ext) :
    Tells ext .datum (.pair a b) (analyzeApplication ext n p) m
  tail {a b : Datum} {k : Keyword} {t : SchemeType} {p : Ptr} {m : Memory}
    (hm : HasConstants m.heap) (h : Shows m.heap (.pair a b) p) (hk : a.HasKeyword ext k)
    (htail : k.IsTail) : Tells ext .datum (.pair a b) (analyzeTail ext n t p) m
  sequence {d : Datum} {p : Ptr} {m : Memory} (hm : HasConstants m.heap) (h : Shows m.heap d p) :
    Tells ext .elems d (analyzeSequence ext n p) m
  elements {d : Datum} {w : Prop} {expr q p : Ptr} {m₀ m : Memory} (hm : HasConstants m₀.heap)
    (h : Shows m₀.heap d p) (heff : Effect w m₀ m)
    (hq : expr = schemeNull ∨ m₀.heap.obj? q = none) :
    Tells ext .elems d (analyzeElements ext n expr q p) m
  cond {a b : Datum} {p : Ptr} {m : Memory} (hm : HasConstants m.heap)
    (h : Shows m.heap (.pair a b) p) (hk : a.HasKeyword ext .cond) :
    Tells ext .datum (.pair a b) (analyzeCond ext n p) m
  clauses {d : Datum} {w : Prop} {expr q p : Ptr} {m₀ m : Memory} (hm : HasConstants m₀.heap)
    (h : Shows m₀.heap d p) (heff : Effect w m₀ m)
    (hq : expr = schemeNull ∨ m₀.heap.obj? q = none) :
    Tells ext .clauses d (analyzeClauses ext n expr q p) m
  definition {a b : Datum} {p : Ptr} {m : Memory} (hm : HasConstants m.heap)
    (h : Shows m.heap (.pair a b) p) (hk : a.HasKeyword ext .define) :
    Tells ext .datum (.pair a b) (analyzeDefinition ext n p) m
  ifForm {a b : Datum} {p : Ptr} {m : Memory} (hm : HasConstants m.heap)
    (h : Shows m.heap (.pair a b) p) (hk : a.HasKeyword ext .if) :
    Tells ext .datum (.pair a b) (analyzeIf ext n p) m
  lambda {a b : Datum} {p : Ptr} {m : Memory} (hm : HasConstants m.heap)
    (h : Shows m.heap (.pair a b) p) (hk : a.HasKeyword ext .lambda) :
    Tells ext .datum (.pair a b) (analyzeLambda ext n p) m
  assignment {a b : Datum} {p : Ptr} {m : Memory} (hm : HasConstants m.heap)
    (h : Shows m.heap (.pair a b) p) (hk : a.HasKeyword ext .set) :
    Tells ext .datum (.pair a b) (analyzeAssignment ext n p) m

/-- Sequences and clauses come to nodes only. -/
theorem ComesTo.eq_node {s : Analyzed} {f : Form} (h : ComesTo ext s d f) (hs : s ≠ .datum) :
    f = .node := by
  cases h <;> first | rfl | exact absurd rfl hs

/-- The elements of a list come to a node, whatever they are. -/
theorem node_of_elems (h : ∃ f, ComesTo ext .elems d f) : ComesTo ext .elems d .node := by
  obtain ⟨f, hf⟩ := h
  obtain rfl := hf.eq_node (by simp)
  exact hf

/-- So do clauses. -/
theorem node_of_clauses (h : ∃ f, ComesTo ext .clauses d f) : ComesTo ext .clauses d .node := by
  obtain ⟨f, hf⟩ := h
  obtain rfl := hf.eq_node (by simp)
  exact hf

/-! ## One function after the other

The step of the induction on the fuel, for each of them. -/

/-- Only the empty list comes to the empty form. -/
theorem ComesTo.eq_null {f : Form} (h : ComesTo ext .datum d f) (hf : f = .empty) : d = .null := by
  cases h <;> first | rfl | cases hf | exact absurd hf (Form.ofParts_ne_empty _)

namespace FormSpec

/-- The analysis of a part, and what it changes. -/
theorem part (ih : FormSpec ext n) (hm : HasConstants m₀.heap) (hx : Shows m₀.heap a x)
    (heff : Effect w m₀ m) : Ensures (SchemeOs.analyze ext n x) m fun _ m' =>
      (∃ f, ComesTo ext .datum a f) ∧ Effect (w ∨ ComesToEmpty ext .datum a) m₀ m' := by
  intro v m' hrun
  have hc := heff.constants hm
  have hx' := hx.effect hm heff
  exact ⟨ih.analyze hc hx' v m' hrun,
    heff.trans ((analysisSpec ext n).analyze hc hx' v m' hrun).effect⟩

/-- The loop over the elements, behind the last pair that it has linked. -/
theorem elements_succ (ih : FormSpec ext n) {expr : Ptr} (hm : HasConstants m₀.heap)
    (h : Shows m₀.heap d p) (heff : Effect w m₀ m)
    (hq : expr = schemeNull ∨ m₀.heap.obj? q = none) :
    Tells ext .elems d (analyzeElements ext (n + 1) expr q p) m := by
  rw [Tells, analyzeElements]
  refine .ite (fun hp => ?_) fun _ => ?_
  · obtain rfl := (h.eq_null_iff hm).mp hp
    exact .of_pure ⟨_, .elemsNil⟩
  · refine .bind (ensures_car hm h heff) ?_
    rintro x m₁ ⟨rfl, a, b, y, rfl, hcell⟩
    refine .bind (ih.part hm hcell.car heff) ?_
    rintro v m₂ ⟨⟨f, hf⟩, heff₂⟩
    refine .run_bind run_schemeMakePair ?_
    have hpush := heff₂.push ⟨.pair, .pair v (some schemeNull)⟩
    have hfresh := heff₂.fresh hm
    have hnext : (∃ f, ComesTo ext .elems b f) → ∃ f, ComesTo ext .elems (.pair a b) f :=
      fun h' => ⟨_, .elemsCons hf (node_of_elems h')⟩
    refine .ite (fun _ => ?_) fun hnull => ?_
    · exact .run_bind (hcell.run_schemeCdr hpush)
        ((ih.elements hm hcell.cdr hpush (.inr hfresh)).mono fun _ _ h' => hnext h')
    · refine .bind (ensures_schemeSetCdr (Q := fun _ m' => Effect _ m₀ m')
        fun a => hpush.modify (hq.resolve_left hnull)) ?_
      rintro ⟨⟩ m₃ hset
      exact .run_bind (hcell.run_schemeCdr hset)
        ((ih.elements hm hcell.cdr hset (.inr hfresh)).mono fun _ _ h' => hnext h')

theorem sequence_succ (ih : FormSpec ext n) (hm : HasConstants m.heap) (h : Shows m.heap d p) :
    Tells ext .elems d (analyzeSequence ext (n + 1) p) m := by
  rw [Tells, analyzeSequence]
  exact .bind (ih.elements hm h (.refl not_false) (.inl rfl)) fun _ _ hf =>
    .bind (ensures_schemeSetType (Q := fun _ _ => True) fun _ _ => trivial) fun _ _ _ => .of_pure hf

/-- The loop over the clauses of a `cond`. -/
theorem clauses_succ (ih : FormSpec ext n) {expr : Ptr} (hm : HasConstants m₀.heap)
    (h : Shows m₀.heap d p) (heff : Effect w m₀ m)
    (hq : expr = schemeNull ∨ m₀.heap.obj? q = none) :
    Tells ext .clauses d (analyzeClauses ext (n + 1) expr q p) m := by
  rw [Tells, analyzeClauses]
  refine .ite (fun hp => ?_) fun _ => ?_
  · obtain rfl := (h.eq_null_iff hm).mp hp
    exact .of_pure ⟨_, .clausesNil⟩
  · refine .bind (ensures_car hm h heff) ?_
    rintro c m₁ ⟨rfl, clause, rest, y, rfl, hcell⟩
    refine .bind (ensures_car hm hcell.car heff) ?_
    rintro x m₂ ⟨rfl, a, body, z, rfl, hclause⟩
    refine .bind (ih.part hm hclause.car heff) ?_
    rintro v m₃ ⟨⟨f, hf⟩, heff₃⟩
    have hbody : Ensures (analyzeSequence ext n z) m₃ fun _ m' =>
        ComesTo ext .elems body .node ∧ ∃ w, Effect w m₀ m' := by
      intro s m₄ hrun
      have hc := heff₃.constants hm
      have hz := hclause.cdr.effect hm heff₃
      exact ⟨node_of_elems (ih.sequence hc hz s m₄ hrun), _,
        heff₃.trans ((analysisSpec ext n).sequence hc hz s m₄ hrun).1⟩
    refine .run_bind (hclause.run_schemeCdr heff₃) (.bind hbody ?_)
    rintro s m₄ ⟨hs, w', heff₄⟩
    refine .run_bind run_schemeMakePair (.run_bind run_schemeMakePair ?_)
    have hpair := heff₄.push ⟨.pair, .pair v (some s)⟩
    have hpush := hpair.push ⟨.pair, .pair m₄.fresh (some schemeNull)⟩
    have hfresh := hpair.fresh hm
    have hnext : (∃ f, ComesTo ext .clauses rest f) →
        ∃ f, ComesTo ext .clauses (.pair (.pair a body) rest) f :=
      fun h' => ⟨_, .clausesCons hf hs (node_of_clauses h')⟩
    refine .ite (fun _ => ?_) fun hnull => ?_
    · exact .run_bind (hcell.run_schemeCdr hpush)
        ((ih.clauses hm hcell.cdr hpush (.inr hfresh)).mono fun _ _ h' => hnext h')
    · refine .bind (ensures_schemeSetCdr (Q := fun _ m' => Effect _ m₀ m')
        fun a => hpush.modify (hq.resolve_left hnull)) ?_
      rintro ⟨⟩ m₅ hset
      exact .run_bind (hcell.run_schemeCdr hset)
        ((ih.clauses hm hcell.cdr hset (.inr hfresh)).mono fun _ _ h' => hnext h')

/-- What comes after the part of a computation that tells the form. -/
theorem then_tells {s : Analyzed} {k : Comp Ptr} {f : Ptr → Comp Ptr} {Q : Prop}
    (h : Ensures k m fun _ _ => Q) (hQ : Q → ∃ f, ComesTo ext s d f) :
    Tells ext s d (k >>= f) m :=
  .bind h fun _ _ hq _ _ _ => hQ hq

theorem application_succ (ih : FormSpec ext n) (hm : HasConstants m.heap)
    (h : Shows m.heap (.pair a b) p) (ha : a.HeadsApplication ext) :
    Tells ext .datum (.pair a b) (analyzeApplication ext (n + 1) p) m := by
  rw [analyzeApplication]
  exact then_tells (ih.sequence hm h) fun hf => ⟨_, .application ha (node_of_elems hf)⟩

theorem tail_succ {k : Keyword} (ih : FormSpec ext n) (hm : HasConstants m.heap)
    (h : Shows m.heap (.pair a b) p) (hk : a.HasKeyword ext k) (htail : k.IsTail) :
    Tells ext .datum (.pair a b) (analyzeTail ext (n + 1) t p) m := by
  rw [analyzeTail]
  obtain ⟨x, y, hcell⟩ := h.cell hm
  exact .run_bind (hcell.run_schemeCdr (.refl not_false)) (then_tells (ih.sequence hm hcell.cdr)
    fun hf => ⟨_, .tail hk htail (node_of_elems hf)⟩)

theorem cond_succ (ih : FormSpec ext n) (hm : HasConstants m.heap)
    (h : Shows m.heap (.pair a b) p) (hk : a.HasKeyword ext .cond) :
    Tells ext .datum (.pair a b) (analyzeCond ext (n + 1) p) m := by
  rw [analyzeCond]
  obtain ⟨x, y, hcell⟩ := h.cell hm
  have heff : Effect False m m := .refl not_false
  exact .run_bind (hcell.run_schemeCdr heff) (then_tells (ih.clauses hm hcell.cdr heff (.inl rfl))
    fun hf => ⟨_, .cond hk (node_of_clauses hf)⟩)

/-- A definition of a variable, or of a procedure with its formals. -/
theorem definition_succ (ih : FormSpec ext n) (hm : HasConstants m.heap)
    (h : Shows m.heap (.pair a b) p) (hk : a.HasKeyword ext .define) :
    Tells ext .datum (.pair a b) (analyzeDefinition ext (n + 1) p) m := by
  rw [analyzeDefinition]
  obtain ⟨x, y, hcell⟩ := h.cell hm
  have heff : Effect False m m := .refl not_false
  refine .run_bind (hcell.run_schemeCdr heff) (.bind (ensures_car hm hcell.cdr heff) ?_)
  rintro q m₁ ⟨rfl, head, rest, z, rfl, hrest⟩
  refine .bind (ensures_type hm hrest.car heff) ?_
  rintro t m₂ ⟨rfl, ht, htnull⟩
  cases head with
  | symbol name =>
    obtain rfl := ht (by simp)
    refine .run_bind (hrest.run_schemeCdr heff) (.bind (ensures_car hm hrest.cdr heff) ?_)
    rintro u m₃ ⟨rfl, e, rest', z', rfl, he⟩
    exact then_tells (ih.analyze hm he.car) fun h => h.elim fun _ hf => ⟨_, .defvar hk hf⟩
  | pair f vars =>
    obtain rfl := ht (by simp)
    obtain ⟨xf, xv, hhead⟩ := hrest.car.cell hm
    exact .run_bind (hhead.run_schemeCar heff) (.run_bind (hhead.run_schemeCdr heff)
      (.run_bind (hrest.run_schemeCdr heff) (then_tells (ih.sequence hm hrest.cdr)
        fun hf => ⟨_, .defun hk (node_of_elems hf)⟩)))
  | null =>
    rcases htnull rfl with rfl | hexpr
    · exact .of_failure
    · cases t <;> first | exact .of_failure | exact absurd hexpr (by decide)
  | void | bool | int | char | string | vector =>
    obtain rfl := ht (by simp)
    exact .of_failure

theorem lambda_succ (ih : FormSpec ext n) (hm : HasConstants m.heap)
    (h : Shows m.heap (.pair a b) p) (hk : a.HasKeyword ext .lambda) :
    Tells ext .datum (.pair a b) (analyzeLambda ext (n + 1) p) m := by
  rw [analyzeLambda]
  obtain ⟨x, y, hcell⟩ := h.cell hm
  have heff : Effect False m m := .refl not_false
  refine .run_bind (hcell.run_schemeCdr heff) (.bind (ensures_car hm hcell.cdr heff) ?_)
  rintro q m₁ ⟨rfl, vars, body, z, rfl, hrest⟩
  exact .run_bind (hrest.run_schemeCdr heff) (then_tells (ih.sequence hm hrest.cdr)
    fun hf => ⟨_, .lambda hk (node_of_elems hf)⟩)

theorem assignment_succ (ih : FormSpec ext n) (hm : HasConstants m.heap)
    (h : Shows m.heap (.pair a b) p) (hk : a.HasKeyword ext .set) :
    Tells ext .datum (.pair a b) (analyzeAssignment ext (n + 1) p) m := by
  rw [analyzeAssignment]
  obtain ⟨x, y, hcell⟩ := h.cell hm
  have heff : Effect False m m := .refl not_false
  refine .run_bind (hcell.run_schemeCdr heff) (.bind (ensures_car hm hcell.cdr heff) ?_)
  rintro q m₁ ⟨rfl, var, rest, z, rfl, hrest⟩
  refine .bind (ensures_type hm hrest.car heff) ?_
  rintro t m₂ ⟨rfl, ht⟩
  refine .ite (fun hne => .of_pure ⟨_, .setOther hk fun hvar => ?_⟩) fun hsymbol => ?_
  · have hnull : var ≠ .null := by
      rintro rfl
      cases hvar
    exact hne ((ht.1 hnull).trans hvar)
  · obtain ⟨name, rfl⟩ := Datum.eq_symbol_of_type ht (not_not.mp hsymbol)
    refine .run_bind (hrest.run_schemeCdr heff) (.bind (ensures_car hm hrest.cdr heff) ?_)
    rintro u m₃ ⟨rfl, e, rest', z', rfl, he⟩
    exact then_tells (ih.analyze hm he.car) fun h => h.elim fun _ hf => ⟨_, .set hk hf⟩

theorem ensures_makeIf {pred cseq alter : Ptr} {Q : Prop} (h : Q) :
    Ensures (makeIf pred cseq alter) m fun _ _ => Q := fun _ _ _ => h

/-- An `if`, with two parts or with three. -/
theorem if_succ (ih : FormSpec ext n) (hm : HasConstants m.heap)
    (h : Shows m.heap (.pair a b) p) (hk : a.HasKeyword ext .if) :
    Tells ext .datum (.pair a b) (analyzeIf ext (n + 1) p) m := by
  have hne : ∀ {d : Datum} {t}, (d ≠ .null → t = d.type) → t ≠ .pair → d.type ≠ .pair := by
    intro d t ht hpair hd
    have hnull : d ≠ .null := by
      rintro rfl
      cases hd
    exact hpair ((ht hnull).trans hd)
  rw [analyzeIf]
  obtain ⟨x, y, hcell⟩ := h.cell hm
  have heff : Effect False m m := .refl not_false
  refine .run_bind (hcell.run_schemeCdr heff) (.bind (ensures_type hm hcell.cdr heff) ?_)
  rintro t m₁ ⟨rfl, ht⟩
  refine .ite (fun hpair => ?_) fun hpair => .of_pure ⟨_, .ifBare hk (hne ht.1 hpair)⟩
  obtain ⟨e₁, r₁, rfl⟩ := Datum.eq_pair_of_type ht hpair
  obtain ⟨x₁, y₁, hcell₁⟩ := hcell.cdr.cell hm
  refine .run_bind (hcell₁.run_schemeCar heff) (.bind (ih.part hm hcell₁.car heff) ?_)
  rintro pred m₂ ⟨⟨f₁, hf₁⟩, heff₂⟩
  refine .run_bind (hcell₁.run_schemeCdr heff₂) (.bind (ensures_type hm hcell₁.cdr heff₂) ?_)
  rintro t₁ m₃ ⟨rfl, ht₁⟩
  refine .ite (fun hpair₁ => ?_) fun hpair₁ => .ite (fun _ => .of_failure) fun hnull => ?_
  · obtain ⟨e₂, r₂, rfl⟩ := Datum.eq_pair_of_type ht₁ hpair₁
    obtain ⟨x₂, y₂, hcell₂⟩ := hcell₁.cdr.cell hm
    refine .run_bind (hcell₂.run_schemeCar heff₂) (.bind (ih.part hm hcell₂.car heff₂) ?_)
    rintro cseq m₄ ⟨⟨f₂, hf₂⟩, heff₄⟩
    refine .run_bind (hcell₂.run_schemeCdr heff₄) (.bind (ensures_type hm hcell₂.cdr heff₄) ?_)
    rintro t₂ m₅ ⟨rfl, ht₂⟩
    refine .ite (fun hpair₂ => ?_) fun hpair₂ => .ite (fun hnull => ?_) fun hnull => ?_
    · obtain ⟨e₃, r₃, rfl⟩ := Datum.eq_pair_of_type ht₂ hpair₂
      obtain ⟨x₃, y₃, hcell₃⟩ := hcell₂.cdr.cell hm
      refine .run_bind (hcell₃.run_schemeCdr heff₄) (.ite (fun hr => ?_) fun hr => ?_)
      · exact .of_pure ⟨_, .ifLong hk hf₁ hf₂ fun h => hr ((hcell₃.cdr.eq_null_iff hm).mpr h)⟩
      · obtain rfl := (hcell₃.cdr.eq_null_iff hm).mp (not_not.mp hr)
        refine .run_bind (hcell₃.run_schemeCar heff₄) (.bind (ih.part hm hcell₃.car heff₄) ?_)
        rintro alter m₆ ⟨⟨f₃, hf₃⟩, -⟩
        exact ensures_makeIf ⟨_, .ifElse hk hf₁ hf₂ hf₃⟩
    · obtain rfl := (hcell₂.cdr.eq_null_iff hm).mp hnull
      exact ensures_makeIf ⟨_, .ifThen hk hf₁ hf₂⟩
    · exact .of_pure ⟨_, .ifCseq hk hf₁ hf₂ (hne ht₂.1 hpair₂) fun h =>
        hnull ((hcell₂.cdr.eq_null_iff hm).mpr h)⟩
  · exact .of_pure ⟨_, .ifPred hk hf₁ (hne ht₁.1 hpair₁) fun h =>
      hnull ((hcell₁.cdr.eq_null_iff hm).mpr h)⟩

/-- The handler that the keyword has. -/
theorem keyword_succ {k : Keyword} (ih : FormSpec ext n) (hm : HasConstants m.heap)
    (h : Shows m.heap (.pair a b) p) (hk : a.HasKeyword ext k) :
    Tells ext .datum (.pair a b) (analyzeKeyword ext (n + 1) k p) m := by
  cases k with
  | and => exact ih.tail hm h hk (.inl rfl)
  | begin => exact ih.tail hm h hk (.inr (.inl rfl))
  | or => exact ih.tail hm h hk (.inr (.inr rfl))
  | cond => exact ih.cond hm h hk
  | define => exact ih.definition hm h hk
  | «else» => exact .of_pure ⟨_, .elseClause hk⟩
  | «if» => exact ih.ifForm hm h hk
  | lambda => exact ih.lambda hm h hk
  | quote =>
    rw [Tells, analyzeKeyword, analyzeQuoted]
    obtain ⟨x, y, hcell⟩ := h.cell hm
    have heff : Effect False m m := .refl not_false
    refine .run_bind (hcell.run_schemeCdr heff) (.bind (ensures_car hm hcell.cdr heff) ?_)
    rintro q m₁ ⟨rfl, e, rest, z, rfl, -⟩
    exact .of_run run_schemeAllocObj ⟨_, .quote hk⟩
  | set => exact ih.assignment hm h hk
  | case | delay | «do» | «let» | letrec | letStar | quasiquote => exact .of_failure

/-- A datum is analyzed by its type, and a pair by what its head is. -/
theorem analyze_succ (ih : FormSpec ext n) (hm : HasConstants m.heap) (h : Shows m.heap d p) :
    Tells ext .datum d (SchemeOs.analyze ext (n + 1) p) m := by
  cases d with
  | null => exact fun _ _ _ => ⟨_, .null⟩
  | void => exact fun _ _ _ => ⟨_, .void⟩
  | bool | int | char | symbol | string | vector =>
    exact fun _ _ _ => ⟨_, .atom (by simp) (by simp) (by simp)⟩
  | pair a b =>
    rw [Tells, SchemeOs.analyze]
    obtain ⟨x, y, hcell⟩ := h.cell hm
    have heff : Effect False m m := .refl not_false
    refine .run_bind (run_schemeType (h.type hm (by simp))) ?_
    rw [if_neg (Datum.not_isExpr_type _)]
    refine .run_bind (hcell.run_schemeCar heff) (.bind (ensures_type hm hcell.car heff) ?_)
    rintro t m₁ ⟨rfl, ht, -⟩
    cases a with
    | symbol name =>
      obtain rfl := ht (by simp)
      refine .run_bind (run_schemeSymbolVal hcell.car.symbolVal) ?_
      cases hfind : findKeyword ext name with
      | none => exact ih.application hm h hfind
      | some k => exact ih.keyword hm h hfind
    | pair =>
      obtain rfl := ht (by simp)
      exact ih.application hm h trivial
    | _ => exact fun _ _ _ => ⟨_, .head (by simp [Datum.type]) (by simp [Datum.type])⟩

end FormSpec

/-! ## What ends comes to a form -/

/-- **What the functions of the analysis tell**, with any fuel. -/
theorem formSpec (ext : Externals) (n : ℕ) : FormSpec ext n := by
  induction n with
  | zero =>
    exact
      { analyze := fun _ _ => .of_failure
        keyword := fun _ _ _ => .of_failure
        application := fun _ _ _ => .of_failure
        tail := fun _ _ _ _ => .of_failure
        sequence := fun _ _ => .of_failure
        elements := fun _ _ _ _ => .of_failure
        cond := fun _ _ _ => .of_failure
        clauses := fun _ _ _ _ => .of_failure
        definition := fun _ _ _ => .of_failure
        ifForm := fun _ _ _ => .of_failure
        lambda := fun _ _ _ => .of_failure
        assignment := fun _ _ _ => .of_failure }
  | succ n ih =>
    exact
      { analyze := ih.analyze_succ
        keyword := ih.keyword_succ
        application := ih.application_succ
        tail := ih.tail_succ
        sequence := ih.sequence_succ
        elements := ih.elements_succ
        cond := ih.cond_succ
        clauses := ih.clauses_succ
        definition := ih.definition_succ
        ifForm := ih.if_succ
        lambda := ih.lambda_succ
        assignment := ih.assignment_succ }

/-- **The analysis of a datum ends exactly when the datum comes to a form.** -/
theorem exists_comesTo_iff (hm : HasConstants m.heap) (h : Shows m.heap d p) :
    (∃ f, ComesTo ext .datum d f) ↔ ∃ r m', Ends (fun n => analyze ext n p) m r m' := by
  constructor
  · rintro ⟨f, hf⟩
    obtain ⟨r, m', hends, -⟩ := hf.analysable m p hm h
    exact ⟨r, m', hends⟩
  · rintro ⟨r, m', N, hN⟩
    exact (formSpec ext N).analyze hm h r m' (hN N le_rfl)

end SchemeOs
