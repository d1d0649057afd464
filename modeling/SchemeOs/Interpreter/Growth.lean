import SchemeOs.Interpreter.Object

/-!
# Interpreter/Growth — memory that grows, and lists built in place

`Grows m H m' H'` says that memory only grew from `m` to `m'`, and a part `H` of it to `H'`.  The
interpreter builds lists front to back: the last pair is changed when the next one is made.  Until
then that pair does not belong to the part, and nothing that is said of the part depends on it.
-/

namespace SchemeOs

variable {U : Ptr → Prop} {m m₁ m' m'' : Memory} {H H₁ H' H'' : Heap} {p q r a c : Ptr} {o : Obj}
  {t : SchemeType}

/-- Memory only grew from `m` to `m'`, and the part `H` of it to `H'`: all objects of `m` but those
in `U` are the same in `m'`, and what is new in `H'` is new in the memory. -/
structure GrowsBut (U : Ptr → Prop) (m : Memory) (H : Heap) (m' : Memory) (H' : Heap) : Prop where
  objs : ∀ p o, ¬ U p → m.heap.obj? p = some o → m'.heap.obj? p = some o
  sub : H.Sub H'
  part : H'.Sub m'.heap
  old : ∀ p o, m.heap.obj? p = some o → H'.obj? p = H.obj? p

/-- Memory only grew, and all old objects are the same. -/
abbrev Grows := GrowsBut fun _ => False

theorem GrowsBut.refl (h : H.Sub m.heap) : GrowsBut U m H m H :=
  ⟨fun _ _ _ h => h, Heap.Sub.refl, h, fun _ _ _ => rfl⟩

theorem GrowsBut.heap (h : Grows m H m' H') : m.heap.Sub m'.heap :=
  fun p o hp => h.objs p o (fun hf => hf) hp

theorem GrowsBut.trans (h : Grows m H m' H') (h' : GrowsBut U m' H' m'' H'') :
    GrowsBut U m H m'' H'' where
  objs p o hU hp := h'.objs p o hU (h.heap p o hp)
  sub := h.sub.trans h'.sub
  part := h'.part
  old p o hp := (h'.old p o (h.heap p o hp)).trans (h.old p o hp)

/-- A new object that joins the part. -/
theorem GrowsBut.push (h : H.Sub m.heap) : Grows m H (m.push o) (H.insert m.fresh o) where
  objs _ _ _ hp := Memory.heap_push _ _ hp
  sub := Heap.sub_insert (h.none Memory.obj?_fresh)
  part := Heap.insert_sub (h.trans Memory.heap_push) Memory.obj?_push_fresh
  old _ _ hp := Heap.obj?_insert_of_ne (Memory.ne_fresh hp)

theorem obj?_insert_fresh : (H.insert m.fresh o).obj? m.fresh = some o :=
  Heap.obj?_insert_self (Memory.obj?_push_fresh (m := m) (o := o))

theorem fresh_ne_of_grows (h : Grows m H m' H') (hp : m.heap.obj? p = some o) : p ≠ m'.fresh :=
  Memory.ne_fresh (h.heap _ _ hp)

/-! ## Linking a new pair to the last one -/

/-- The memory with a new pair of `a` that follows the pair `q` of `c`. -/
def Memory.link (m : Memory) (q c a : Ptr) : Memory :=
  (m.push ⟨.pair, .pair a (some schemeNull)⟩).modify q fun o =>
    { o with u := .pair c (some m.fresh) }

@[simp] theorem bindings_link : (m.link q c a).bindings = m.bindings :=
  Memory.bindings_modify

@[simp] theorem blocks_link : (m.link q c a).blocks = m.blocks :=
  Memory.blocks_modify

theorem link_of_ne (hp : m.heap.obj? p = some o) (hpq : p ≠ q) :
    (m.link q c a).heap.obj? p = some o :=
  (Memory.obj?_modify_of_ne hpq).trans (Memory.heap_push _ _ hp)

theorem link_last (hq : m.heap.obj? q = some ⟨t, .pair c (some schemeNull)⟩) :
    (m.link q c a).heap.obj? q = some ⟨t, .pair c (some m.fresh)⟩ :=
  Memory.obj?_modify_self (Memory.heap_push _ _ hq)

theorem link_fresh (hq : m.heap.obj? q = some o) :
    (m.link q c a).heap.obj? m.fresh = some ⟨.pair, .pair a (some schemeNull)⟩ :=
  (Memory.obj?_modify_of_ne (Memory.ne_fresh hq).symm).trans Memory.obj?_push_fresh

theorem sub_link (h : H.Sub m.heap) (hq : H.obj? q = none) : H.Sub (m.link q c a).heap := by
  intro p o hp
  refine link_of_ne (h _ _ hp) ?_
  rintro rfl
  simp [hq] at hp

/-- The pair is made, and the last one is changed. -/
theorem run_link (hq : m.heap.obj? q = some ⟨t, .pair c (some schemeNull)⟩) :
    (schemeSetCdr q m.fresh).run (m.push ⟨.pair, .pair a (some schemeNull)⟩) =
      some ((), m.link q c a) :=
  run_schemeSetCdr (Heap.car?_of_obj? (Memory.heap_push _ _ hq))

/-- **A new pair is linked to the last one**, and then more is done to the new one: from the old
last pair the memory grew, and the new one joins the part. -/
theorem GrowsBut.link (h : Grows m H m₁ H₁)
    (hq : m.heap.obj? q = some ⟨t, .pair c (some schemeNull)⟩)
    (h' : GrowsBut (· = m₁.fresh) (m₁.link q c a) H₁ m' H')
    (hp : m'.heap.obj? m₁.fresh = some ⟨.pair, .pair a (some r)⟩) :
    GrowsBut (· = q) m H m' (H'.insert m₁.fresh ⟨.pair, .pair a (some r)⟩) ∧
      H'.Sub (H'.insert m₁.fresh ⟨.pair, .pair a (some r)⟩) ∧
      m'.heap.obj? q = some ⟨t, .pair c (some m₁.fresh)⟩ := by
  have hq₁ := h.heap _ _ hq
  have hfresh : H'.obj? m₁.fresh = none :=
    (h'.old _ _ (link_fresh hq₁)).trans (h.part.none Memory.obj?_fresh)
  refine ⟨⟨fun y o hyq hy => ?_, ?_, Heap.insert_sub h'.part hp, fun y o hy => ?_⟩,
    Heap.sub_insert hfresh, h'.objs _ _ (Memory.ne_fresh hq₁) (link_last hq₁)⟩
  · exact h'.objs y o (fresh_ne_of_grows h hy) (link_of_ne (h.heap _ _ hy) hyq)
  · exact h.sub.trans (h'.sub.trans (Heap.sub_insert hfresh))
  · rw [Heap.obj?_insert_of_ne (fresh_ne_of_grows h hy)]
    by_cases hyq : y = q
    · rw [hyq, h'.old _ _ (link_last hq₁), h.old _ _ hq]
    · rw [h'.old _ _ (link_of_ne (h.heap _ _ hy) hyq), h.old _ _ hy]

/-- A first pair is made, and then more is done to it: it joins the part with what it holds at the
end. -/
theorem GrowsBut.first (h : Grows m H m₁ H₁)
    (h' : GrowsBut (· = m₁.fresh) (m₁.push ⟨.pair, .pair a (some schemeNull)⟩) H₁ m' H') :
    Grows m H m' H' ∧ m.heap.obj? m₁.fresh = none ∧ H'.obj? m₁.fresh = none := by
  refine ⟨⟨fun y o _ hy => ?_, h.sub.trans h'.sub, h'.part, fun y o hy => ?_⟩, ?_, ?_⟩
  · exact h'.objs y o (fresh_ne_of_grows h hy) (Memory.heap_push _ _ (h.heap _ _ hy))
  · rw [h'.old _ _ (Memory.heap_push _ _ (h.heap _ _ hy)), h.old _ _ hy]
  · exact h.heap.none Memory.obj?_fresh
  · exact (h'.old _ _ Memory.obj?_push_fresh).trans (h.part.none Memory.obj?_fresh)

/-- An object that is not old joins the part. -/
theorem GrowsBut.join (h : Grows m H m' H') (hp : m.heap.obj? p = none) (hpH : H'.obj? p = none)
    (hp' : m'.heap.obj? p = some o) : Grows m H m' (H'.insert p o) := by
  refine ⟨h.objs, h.sub.trans (Heap.sub_insert hpH), Heap.insert_sub h.part hp', fun y o hy => ?_⟩
  rw [Heap.obj?_insert_of_ne (by rintro rfl; simp [hp] at hy), h.old _ _ hy]

/-- An object that is not old changes while it does not belong to the part. -/
theorem GrowsBut.modify (h : Grows m H m' H') (hp : m.heap.obj? p = none)
    (hpH : H'.obj? p = none) {f : Obj → Obj} : Grows m H (m'.modify p f) H' := by
  refine ⟨fun y o _ hy => ?_, h.sub, fun y o hy => ?_, h.old⟩
  · rw [Memory.obj?_modify_of_ne (by rintro rfl; simp [hp] at hy)]
    exact h.heap _ _ hy
  · rw [Memory.obj?_modify_of_ne (by rintro rfl; simp [hpH] at hy)]
    exact h.part _ _ hy

end SchemeOs
