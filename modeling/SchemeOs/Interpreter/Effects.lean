import SchemeOs.Interpreter.Nodes
import SchemeOs.Machinery.Ensures
import SchemeOs.Reader.Parser

/-!
# Interpreter/Effects — what the analysis of a datum changes

`Shows H d p` says that the datum `d` lies at `p`, as the reader builds it.  The analysis of a datum
makes new objects and changes those.  There is one exception: the sequence of no expressions is
`schemeNull`, and gets a type like every other.  `ComesToEmpty` tells from the datum whether that
happens, and `Effect` what is left of the memory.
-/

namespace SchemeOs

variable {ext : Externals} {m m' m₀ m₁ m₂ : Memory} {d : Datum} {p q r x y : Ptr}
  {w w' : Prop} {n : ℕ} {t : SchemeType}

/-- The datum lies at `p`; nothing looks at the elements of a vector. -/
def Shows (H : Heap) : Datum → Ptr → Prop
  | .null, p => p = schemeNull
  | .void, p => p = schemeVoid
  | .bool b, p => p = if b then schemeTrue else schemeFalse
  | .int n, p => H.obj? p = some ⟨.integer, .int n⟩
  | .char c, p => p = .char c
  | .symbol name, p => H.obj? p = some ⟨.symbol, .symbol name⟩
  | .string text, p => H.obj? p = some ⟨.string, .str text⟩
  | .pair car cdr, p => ∃ x y, H.obj? p = some ⟨.pair, .pair x (some y)⟩ ∧ Shows H car x ∧
      Shows H cdr y
  | .vector _ _, p => ∃ buf, H.obj? p = some ⟨.vector, .vector buf⟩

/-- The constants, where the type of `schemeNull` may be that of an analyzed expression, and that of
`schemeVoid` is zero, as it was never set. -/
structure HasConstants (H : Heap) : Prop where
  null : ∃ t, H.obj? schemeNull = some ⟨t, .const⟩ ∧ (t = .null ∨ t.IsExpr)
  void : H.obj? schemeVoid = some ⟨.env, .const⟩
  true : H.obj? schemeTrue = some ⟨.bool, .const⟩
  false : H.obj? schemeFalse = some ⟨.bool, .const⟩

/-! ## Data that come to an empty sequence

For these the analysis sets the type of `scheme_null` itself, in place of that of a new list. -/

/-- What is analyzed: a datum, the elements of a sequence, or the clauses of a `cond`. -/
inductive Analyzed where
  | datum | elems | clauses

/-- Keywords whose operands are a sequence or clauses. -/
def Keyword.IsTail (k : Keyword) : Prop := k = .and ∨ k = .begin ∨ k = .or

/-- A datum that heads an application. -/
def Datum.HeadsApplication (ext : Externals) : Datum → Prop
  | .pair _ _ => True
  | .symbol name => findKeyword ext name = none
  | _ => False

/-- The head of the form is a name for which `findKeyword` has the handler `k`. -/
def Datum.HasKeyword (ext : Externals) (k : Keyword) : Datum → Prop
  | .symbol name => findKeyword ext name = some k
  | _ => False

/-- **The analysis comes to an empty list of operands, body or list of clauses.** -/
inductive ComesToEmpty (ext : Externals) : Analyzed → Datum → Prop where
  | application {a rest} (ha : a.HeadsApplication ext)
      (h : ComesToEmpty ext .elems (.pair a rest)) :
      ComesToEmpty ext .datum (.pair a rest)
  | tailNil {a k} (ha : a.HasKeyword ext k) (hk : k.IsTail ∨ k = .cond) :
      ComesToEmpty ext .datum (.pair a .null)
  | tail {a k rest} (ha : a.HasKeyword ext k) (hk : k.IsTail) (h : ComesToEmpty ext .elems rest) :
      ComesToEmpty ext .datum (.pair a rest)
  | cond {a rest} (ha : a.HasKeyword ext .cond) (h : ComesToEmpty ext .clauses rest) :
      ComesToEmpty ext .datum (.pair a rest)
  | defvar {a name e rest} (ha : a.HasKeyword ext .define) (h : ComesToEmpty ext .datum e) :
      ComesToEmpty ext .datum (.pair a (.pair (.symbol name) (.pair e rest)))
  | defunNil {a f vars} (ha : a.HasKeyword ext .define) :
      ComesToEmpty ext .datum (.pair a (.pair (.pair f vars) .null))
  | defun {a f vars body} (ha : a.HasKeyword ext .define) (h : ComesToEmpty ext .elems body) :
      ComesToEmpty ext .datum (.pair a (.pair (.pair f vars) body))
  | ifPred {a e rest} (ha : a.HasKeyword ext .if) (h : ComesToEmpty ext .datum e) :
      ComesToEmpty ext .datum (.pair a (.pair e rest))
  | ifCseq {a e₁ e rest} (ha : a.HasKeyword ext .if) (h : ComesToEmpty ext .datum e) :
      ComesToEmpty ext .datum (.pair a (.pair e₁ (.pair e rest)))
  | ifAlter {a e₁ e₂ e} (ha : a.HasKeyword ext .if) (h : ComesToEmpty ext .datum e) :
      ComesToEmpty ext .datum (.pair a (.pair e₁ (.pair e₂ (.pair e .null))))
  | lambdaNil {a vars} (ha : a.HasKeyword ext .lambda) :
      ComesToEmpty ext .datum (.pair a (.pair vars .null))
  | lambda {a vars body} (ha : a.HasKeyword ext .lambda) (h : ComesToEmpty ext .elems body) :
      ComesToEmpty ext .datum (.pair a (.pair vars body))
  | set {a name e rest} (ha : a.HasKeyword ext .set) (h : ComesToEmpty ext .datum e) :
      ComesToEmpty ext .datum (.pair a (.pair (.symbol name) (.pair e rest)))
  | elemsHead {a rest} (h : ComesToEmpty ext .datum a) : ComesToEmpty ext .elems (.pair a rest)
  | elemsTail {a rest} (h : ComesToEmpty ext .elems rest) : ComesToEmpty ext .elems (.pair a rest)
  | clauseTest {a body rest} (h : ComesToEmpty ext .datum a) :
      ComesToEmpty ext .clauses (.pair (.pair a body) rest)
  | clauseNil {a rest} : ComesToEmpty ext .clauses (.pair (.pair a .null) rest)
  | clauseBody {a body rest} (h : ComesToEmpty ext .elems body) :
      ComesToEmpty ext .clauses (.pair (.pair a body) rest)
  | clausesTail {a rest} (h : ComesToEmpty ext .clauses rest) :
      ComesToEmpty ext .clauses (.pair a rest)

/-! ## What is left of the memory

The objects that were there stay as they are, but for the type of `scheme_null`. -/

/-- All objects are the same but `schemeNull`, whose type is that of an expression where `w`. -/
structure Effect (w : Prop) (m m' : Memory) : Prop where
  objs : ∀ p o, p ≠ schemeNull → m.heap.obj? p = some o → m'.heap.obj? p = some o
  null : ∀ t, m.heap.obj? schemeNull = some ⟨t, .const⟩ →
    ∃ t', m'.heap.obj? schemeNull = some ⟨t', .const⟩ ∧ (w → t'.IsExpr) ∧ (¬w → t' = t) ∧
      (t.IsExpr → t'.IsExpr)
  bindings : m'.bindings = m.bindings
  blocks : m'.blocks = m.blocks

namespace Effect

theorem refl (hw : ¬w) : Effect w m m where
  objs _ _ _ h := h
  null t h := ⟨t, h, fun h => absurd h hw, fun _ => rfl, fun h => h⟩
  bindings := rfl
  blocks := rfl

theorem congr (h : Effect w m m') (hw : w ↔ w') : Effect w' m m' := propext hw ▸ h

/-- **One after the other.** -/
theorem trans (h : Effect w m m₁) (h' : Effect w' m₁ m') : Effect (w ∨ w') m m' where
  objs p o hp ho := h'.objs p o hp (h.objs p o hp ho)
  null t ht := by
    obtain ⟨t₁, ht₁, hw, hnw, hexpr⟩ := h.null t ht
    obtain ⟨t', ht', hw', hnw', hexpr'⟩ := h'.null t₁ ht₁
    refine ⟨t', ht', ?_, fun hor => ?_, fun h => hexpr' (hexpr h)⟩
    · rintro (h | h)
      · exact hexpr' (hw h)
      · exact hw' h
    · rw [hnw' fun h => hor (.inr h), hnw fun h => hor (.inl h)]
  bindings := h'.bindings.trans h.bindings
  blocks := h'.blocks.trans h.blocks

theorem obj (h : Effect w m m') {o : Obj} (hm : HasConstants m.heap) (hp : m.heap.obj? p = some o) :
    ∃ o', m'.heap.obj? p = some o' := by
  by_cases hnull : p = schemeNull
  · subst hnull
    obtain ⟨t, ht, -⟩ := hm.null
    obtain ⟨t', ht', -⟩ := h.null t ht
    exact ⟨_, ht'⟩
  · exact ⟨o, h.objs p o hnull hp⟩

theorem constants (h : Effect w m m') (hm : HasConstants m.heap) : HasConstants m'.heap where
  null := by
    obtain ⟨t, ht, hor⟩ := hm.null
    obtain ⟨t', ht', hw, hnw, hexpr⟩ := h.null t ht
    refine ⟨t', ht', ?_⟩
    by_cases hdec : w
    · exact .inr (hw hdec)
    · exact hnw hdec ▸ hor
  void := h.objs _ _ (by decide) hm.void
  true := h.objs _ _ (by decide) hm.true
  false := h.objs _ _ (by decide) hm.false

/-- A new object of `m'` is one that `m` does not have. -/
theorem fresh (h : Effect w m m') (hm : HasConstants m.heap) : m.heap.obj? m'.fresh = none := by
  cases ho : m.heap.obj? m'.fresh with
  | none => rfl
  | some o =>
    obtain ⟨o', ho'⟩ := h.obj hm ho
    rw [Memory.obj?_fresh] at ho'
    cases ho'

theorem push (h : Effect w m m') (o : Obj) : Effect w m (m'.push o) where
  objs p o' hp ho := Memory.heap_push _ _ (h.objs p o' hp ho)
  null t ht := by
    obtain ⟨t', ht', hw⟩ := h.null t ht
    exact ⟨t', Memory.heap_push _ _ ht', hw⟩
  bindings := h.bindings
  blocks := h.blocks

/-- A change of a new object. -/
theorem modify (h : Effect w m m') {f : Obj → Obj} (hp : m.heap.obj? p = none) :
    Effect w m (m'.modify p f) where
  objs q o hq ho := by
    rw [Memory.obj?_modify_of_ne]
    · exact h.objs q o hq ho
    · rintro rfl
      rw [hp] at ho
      cases ho
  null t ht := by
    obtain ⟨t', ht', hw⟩ := h.null t ht
    refine ⟨t', ?_, hw⟩
    rw [Memory.obj?_modify_of_ne, ht']
    rintro rfl
    rw [hp] at ht
    cases ht
  bindings := by rw [Memory.bindings_modify, h.bindings]
  blocks := by rw [Memory.blocks_modify, h.blocks]

/-- The type of an empty sequence. -/
theorem retype (h : Effect w m m') (ht : t.IsExpr) (hw : w') :
    Effect w' m (m'.modify schemeNull fun o => { o with type := t }) where
  objs q o hq ho := by
    rw [Memory.obj?_modify_of_ne hq]
    exact h.objs q o hq ho
  null u hu := by
    obtain ⟨u', hu', -⟩ := h.null u hu
    exact ⟨t, Memory.obj?_modify_self hu', fun _ => ht, fun h => absurd hw h, fun _ => ht⟩
  bindings := by rw [Memory.bindings_modify, h.bindings]
  blocks := by rw [Memory.blocks_modify, h.blocks]

end Effect

/-- What lies at `p` is no constant, so it is the same. -/
theorem Shows.effect (h : Shows m.heap d p) (hm : HasConstants m.heap) (heff : Effect w m m') :
    Shows m'.heap d p := by
  have hobj : ∀ {p o}, m.heap.obj? p = some o → o.u ≠ .const → m'.heap.obj? p = some o := by
    intro p o ho hu
    refine heff.objs p o (fun hp => ?_) ho
    subst hp
    obtain ⟨t, ht, -⟩ := hm.null
    rw [ht] at ho
    cases ho
    exact hu rfl
  induction d generalizing p with
  | null | void | bool | char => exact h
  | int | symbol | string => exact hobj h nofun
  | vector =>
    obtain ⟨buf, h⟩ := h
    exact ⟨buf, hobj h nofun⟩
  | pair car cdr ihcar ihcdr =>
    obtain ⟨x, y, h, hcar, hcdr⟩ := h
    exact ⟨x, y, hobj h nofun, ihcar hcar, ihcdr hcdr⟩

/-! ## Reading a datum -/

/-- The pair that lies at `p`, if it has a car or a cdr. -/
theorem Shows.pair (h : Shows m.heap d p) (hm : HasConstants m.heap) {o : Obj} {x : Ptr}
    {u : Option Ptr} (ho : m.heap.obj? p = some o) (hu : o.u = .pair x u) :
    ∃ a b y, d = .pair a b ∧ u = some y ∧ m.heap.type? p = some .pair ∧ Shows m.heap a x ∧
      Shows m.heap b y := by
  cases d with
  | null =>
    obtain rfl : p = schemeNull := h
    obtain ⟨t, ht, -⟩ := hm.null
    rw [ht] at ho
    cases ho
    cases hu
  | void =>
    obtain rfl : p = schemeVoid := h
    rw [hm.void] at ho
    cases ho
    cases hu
  | bool b =>
    cases b
    · obtain rfl : p = schemeFalse := h
      rw [hm.false] at ho
      cases ho
      cases hu
    · obtain rfl : p = schemeTrue := h
      rw [hm.true] at ho
      cases ho
      cases hu
  | char c =>
    obtain rfl : p = .char c := h
    cases ho
  | int | symbol | string =>
    rw [Shows] at h
    rw [h] at ho
    cases ho
    cases hu
  | vector =>
    obtain ⟨buf, h⟩ := h
    rw [h] at ho
    cases ho
    cases hu
  | pair a b =>
    obtain ⟨x', y, h, ha, hb⟩ := h
    have hobj := h
    rw [h] at ho
    cases ho
    cases hu
    exact ⟨a, b, y, rfl, rfl, Heap.type?_of_obj? hobj, ha, hb⟩

theorem ensures_schemeCar (h : Shows m.heap d p) (hm : HasConstants m.heap) :
    Ensures (schemeCar p) m fun x m' => m' = m ∧ ∃ a b, d = .pair a b ∧ Shows m.heap a x := by
  rintro x m' hrun
  obtain ⟨y, hy, heq⟩ := Option.map_eq_some_iff.mp hrun
  cases heq
  obtain ⟨t, u, ho⟩ := Heap.obj?_of_car? hy
  obtain ⟨a, b, -, rfl, -, -, ha, -⟩ := h.pair hm ho rfl
  exact ⟨rfl, a, b, rfl, ha⟩

theorem ensures_schemeCdr (h : Shows m.heap d p) (hm : HasConstants m.heap) :
    Ensures (schemeCdr p) m fun y m' => m' = m ∧ ∃ a b, d = .pair a b ∧ Shows m.heap b y := by
  rintro y m' hrun
  obtain ⟨y, hy, heq⟩ := Option.map_eq_some_iff.mp hrun
  cases heq
  dsimp only at hy
  unfold Heap.cdr? at hy
  split at hy
  · next t x u ho =>
    obtain ⟨a, b, y', rfl, hu, -, -, hb⟩ := h.pair hm ho rfl
    rw [hu] at hy
    cases hy
    exact ⟨rfl, a, b, rfl, hb⟩
  · cases hy

/-- The type that the reader gives a datum. Nothing ever sets the type of `scheme_void`, so it
keeps the value `0` of `scheme_env_type`. -/
def Datum.type : Datum → SchemeType
  | .null => .null
  | .void => .env
  | .bool _ => .bool
  | .int _ => .integer
  | .char _ => .char
  | .symbol _ => .symbol
  | .string _ => .string
  | .pair _ _ => .pair
  | .vector _ _ => .vector

theorem Shows.type (h : Shows m.heap d p) (hm : HasConstants m.heap) (hd : d ≠ .null) :
    m.heap.type? p = some d.type := by
  cases d with
  | null => exact absurd rfl hd
  | void =>
    obtain rfl : p = schemeVoid := h
    exact Heap.type?_of_obj? hm.void
  | bool b =>
    cases b
    · obtain rfl : p = schemeFalse := h
      exact Heap.type?_of_obj? hm.false
    · obtain rfl : p = schemeTrue := h
      exact Heap.type?_of_obj? hm.true
  | char c =>
    obtain rfl : p = .char c := h
    rfl
  | int | symbol | string => exact Heap.type?_of_obj? h
  | vector =>
    obtain ⟨buf, h⟩ := h
    exact Heap.type?_of_obj? h
  | pair a b =>
    obtain ⟨x, y, h, -⟩ := h
    exact Heap.type?_of_obj? h

theorem ensures_schemeType (h : Shows m.heap d p) (hm : HasConstants m.heap) :
    Ensures (schemeType p) m fun t m' => m' = m ∧ (d ≠ .null → t = d.type) ∧
      (d = .null → t = .null ∨ t.IsExpr) := by
  rintro t m' hrun
  obtain ⟨t, ht, heq⟩ := Option.map_eq_some_iff.mp hrun
  cases heq
  dsimp only at ht
  refine ⟨rfl, fun hd => ?_, ?_⟩
  · rw [h.type hm hd] at ht
    exact (Option.some.inj ht).symm
  · rintro rfl
    obtain rfl : p = schemeNull := h
    obtain ⟨u, hu, hor⟩ := hm.null
    rw [Heap.type?_of_obj? hu] at ht
    cases ht
    exact hor

theorem Datum.eq_null_of_type (h : d.type = .null ∨ d.type.IsExpr) : d = .null := by
  cases d <;> simp only [Datum.type] at h <;> first | rfl | exact absurd h (by decide)

theorem Shows.eq_null_iff (h : Shows m.heap d p) (hm : HasConstants m.heap) :
    p = schemeNull ↔ d = .null := by
  constructor
  · rintro rfl
    by_contra hd
    obtain ⟨t, ht, hor⟩ := hm.null
    have htype := h.type hm hd
    rw [Heap.type?_of_obj? ht] at htype
    cases htype
    exact hd (Datum.eq_null_of_type hor)
  · rintro rfl
    exact h

theorem ensures_schemeSetType {Q : Unit → Memory → Prop}
    (h : ∀ o, m.heap.obj? p = some o → Q () (m.modify p fun o => { o with type := t })) :
    Ensures (schemeSetType p t) m Q := by
  rintro ⟨⟩ m' hrun
  obtain ⟨o, ho, heq⟩ := Option.map_eq_some_iff.mp hrun
  cases heq
  exact h o ho

theorem ensures_schemeSetCdr {Q : Unit → Memory → Prop}
    (h : ∀ a, Q () (m.modify p fun o => { o with u := .pair a (some q) })) :
    Ensures (schemeSetCdr p q) m Q := by
  rintro ⟨⟩ m' hrun
  obtain ⟨a, ha, heq⟩ := Option.map_eq_some_iff.mp hrun
  cases heq
  exact h a

end SchemeOs
