import SchemeOs.Collector.Slots
import SchemeOs.Memory.Answers

/-!
# Collector/SlotPages — the slots of `mm/gc.c` in the memory of `mm/memory.c`

`gc_alloc_obj` and `gc_alloc_nobj` call `expand_region` when too few slots are free, and between
their calls the heap and the stack are grown.  The system of both is run on one memory: each of its
runs is a run of the slots alone, with the answers that `expand_region` really gives, and the slots
lie in the region that the table has for them.
-/

namespace SchemeOs.SlotPages

open Memory
open Collector (Expands endOf expands_of_expandRegion)
open Slots (initial)

/-! ## The system -/

/-- The memory and the slots. -/
structure Kernel where
  mem : Mem
  slots : Slots.System

/-- `expand_region` for the heap or the stack, which returns `q`, or a call for slots. -/
inductive Event where
  | expand (region q : ℕ)
  | alloc (e : Slots.Event)

/-- One call; a call for slots asks for a page when too few are free. -/
inductive Step (high : ℕ) : Kernel → Event → Kernel → Prop where
  | expand {k : Kernel} {m : Mem} {region q : ℕ} : region = mmHeap ∨ region = mmStack →
      expandRegion high region k.mem = some (q, m) → Step high k (.expand region q) ⟨m, k.slots⟩
  | alloc {k : Kernel} {m : Mem} {e : Slots.Event} : k.slots.gc.freeNslots < e.call.count →
      e.call.count < 2 ^ 31 → expandRegion high mmSlots k.mem = some (e.p, m) →
      Step high k (.alloc e) ⟨m, k.slots.after e (endOf m.table mmSlots)⟩
  | enough {k : Kernel} {e : Slots.Event} : e.call.count ≤ k.slots.gc.freeNslots →
      e.call.count < 2 ^ 31 → e.p = 0 →
      Step high k (.alloc e) ⟨k.mem, k.slots.after e k.slots.limit⟩

/-- Calls for slots do what they should. -/
def Event.Served (k : Kernel) : Event → Prop
  | .expand _ _ => True
  | .alloc e => e.Served k.slots

/-- The calls for slots. -/
def slotEvents (events : List Event) : List Slots.Event :=
  events.filterMap fun
    | .expand _ _ => none
    | .alloc e => some e

/-- What the table of the regions says of the slots is what the collector goes by. -/
structure Kernel.Linked (high : ℕ) (k : Kernel) : Prop where
  paged : Paged high k.mem
  limit_eq : k.slots.limit = endOf k.mem.table mmSlots
  pages : ∀ p ∈ k.slots.pages, pageAt p ⊆ (k.mem.table mmSlots).span

/-! ## The slots region

The pages that the allocator of slots is given are those of its region of the table. -/

variable {table : Table} {high region p q h n l limit : ℕ} {m t : Mem} {k k' : Kernel}
variable {e : Event} {events : List Event}

theorem endOf_slots (hs : Shape table h n l) : endOf table mmSlots = 0x40000000 + 4096 * l := by
  rw [endOf, mmSlots, hs.slots]

/-- The slots region ends before the sentinel. -/
theorem endOf_slots_le (hm : Paged high m) : endOf m.table mmSlots ≤ kSlotsStart + kSlotsSize := by
  obtain ⟨h, n, l, hs⟩ := hm.shape
  have hroom := hs.room
  rw [endOf_slots hs, kSlotsStart, kSlotsSize]
  omega

/-- Heap and stack leave the slots region as it is. -/
theorem endOf_slots_of_expand (hm : Paged high m) (hhigh : high ≤ 68156416)
    (hr : region = mmHeap ∨ region = mmStack) (hexp : expandRegion high region m = some (q, t)) :
    endOf t.table mmSlots = endOf m.table mmSlots := by
  have hgrowing : region ∈ growing := by rcases hr with rfl | rfl <;> decide
  have hne : region ≠ mmSlots := by rcases hr with rfl | rfl <;> decide
  rcases expandRegion_spec hm hhigh hgrowing with hnull | ⟨p, table, q', t', hg, hexp', -, ht, -⟩
  · obtain ⟨-, rfl⟩ := Prod.mk.inj (Option.some.inj (hnull.symm.trans hexp))
    rfl
  · obtain ⟨-, rfl⟩ := Prod.mk.inj (Option.some.inj (hexp'.symm.trans hexp))
    obtain ⟨h, n, l, hs⟩ := hm.shape
    rw [ht, endOf_slots hs]
    rcases growTable_cases hs hgrowing hg with ⟨-, -, hs'⟩ | ⟨-, -, hs'⟩ | ⟨heq, -⟩
    · exact endOf_slots hs'
    · exact endOf_slots hs'
    · exact absurd heq hne

/-- `expand_region(mm_slots)` in a state of the memory that is reached. -/
theorem expands_slots (hm : Paged high m) (hexp : expandRegion high mmSlots m = some (q, t)) :
    Expands (endOf m.table mmSlots) q (endOf t.table mmSlots) := by
  obtain ⟨h, n, l, hs⟩ := hm.shape
  have hroom := hs.room
  refine expands_of_expandRegion (by rw [mmSlots, hs.slots]; rfl) ?_ hexp
  rw [endOf_slots hs, kPgSize]
  omega

/-- The pages of the slots after a call. -/
theorem mem_pages_after {s : Slots.System} {e : Slots.Event} (hp : p ∈ (s.after e limit).pages) :
    p ∈ s.pages ∨ p = e.p ∧ e.p ≠ 0 := by
  unfold Slots.System.after at hp
  by_cases hfree : s.gc.freeNslots < e.call.count
  · rw [if_pos hfree] at hp
    by_cases hzero : e.p = 0
    · exact Or.inl (by simpa [hzero] using hp)
    · exact (List.mem_cons.mp (by simpa [hzero] using hp)).symm.imp_right fun heq => ⟨heq, hzero⟩
  · rw [if_neg hfree] at hp
    exact Or.inl hp

theorem limit_after {s : Slots.System} {e : Slots.Event} :
    (s.after e limit).limit = if s.gc.freeNslots < e.call.count then limit else s.limit := by
  unfold Slots.System.after
  split_ifs <;> rfl

/-! ## One call -/

/-- What a call does to the slots. -/
def Event.Acts (s : Slots.System) (s' : Slots.System) : Event → Prop
  | .expand _ _ => s' = s
  | .alloc e => Slots.Step s e s'

/-- **The step lemma**: table and collector agree, and the slots take the step that their own model
has. -/
theorem linked_step (hhigh : high ≤ 68156416) (hk : k.Linked high) (hst : Step high k e k') :
    k'.Linked high ∧ e.Acts k.slots k'.slots := by
  cases hst with
  | @expand m region q hr hexp =>
    have hgrowing : region ∈ growing := by rcases hr with rfl | rfl <;> decide
    obtain ⟨hm, hspan, -⟩ := expands_step hhigh hk.paged
      (show Memory.Expands high k.mem (region, q) m from ⟨hgrowing, hexp⟩)
    refine ⟨⟨hm, ?_, fun p hp => (hk.pages p hp).trans (hspan _ (by decide))⟩, rfl⟩
    rw [endOf_slots_of_expand hk.paged hhigh hr hexp]
    exact hk.limit_eq
  | @alloc m e hfull hcount hexp =>
    have hgrowing : mmSlots ∈ growing := by decide
    obtain ⟨hm, hspan, hfresh⟩ := expands_step hhigh hk.paged
      (show Memory.Expands high k.mem (mmSlots, e.p) m from ⟨hgrowing, hexp⟩)
    refine ⟨⟨hm, by rw [limit_after, if_pos hfull], fun p hp => ?_⟩, .call ?_ (endOf_slots_le hm)
      hcount⟩
    · rcases mem_pages_after hp with hold | ⟨rfl, hnew⟩
      · exact (hk.pages p hold).trans (hspan _ (by decide))
      · exact (hfresh hnew).belongs
    · rw [hk.limit_eq]
      exact expands_slots hk.paged hexp
  | @enough e hfree hcount hp =>
    refine ⟨⟨hk.paged, ?_, fun p hp' => hk.pages p ?_⟩, .call ?_ ?_ hcount⟩
    · rw [limit_after, ite_self]
      exact hk.limit_eq
    · exact (mem_pages_after hp').resolve_right fun hnew => hnew.2 hp
    · rw [hp]
      exact .refused
    · rw [hk.limit_eq]
      exact endOf_slots_le hk.paged

/-! ## Runs -/

/-- **The run lemma**: a run of both is a run of the slots, with the calls for them. -/
theorem linked_run (hhigh : high ≤ 68156416)
    (hr : Runs (Guarded Event.Served (Step high)) k events k') (hk : k.Linked high) :
    k'.Linked high ∧ Runs (Guarded (fun s e => Slots.Event.Served s e) Slots.Step) k.slots
      (slotEvents events) k'.slots := by
  induction hr with
  | nil k => exact ⟨hk, .nil _⟩
  | @cons k k₁ k₂ e events hst _ ih =>
    obtain ⟨hk', hacts⟩ := linked_step hhigh hk hst.2
    obtain ⟨hlast, hrun⟩ := ih hk'
    refine ⟨hlast, ?_⟩
    cases e with
    | expand region q => exact (hacts : k₁.slots = k.slots) ▸ hrun
    | alloc e => exact .cons ⟨hst.1, hacts⟩ hrun

theorem linked_init {ext : BitVec 16} {dir : ℕ → ℕ} {size : ℕ}
    (h₀ : kscmInitPaging (highMemory ext) dir = some m) :
    Kernel.Linked (highMemory ext) ⟨m, initial size⟩ := by
  obtain ⟨s', hs', htable, hm⟩ := exists_kscmInitPaging (highMemory ext) dir
  obtain rfl := Option.some.inj (h₀.symm.trans hs')
  refine ⟨hm, by rw [htable]; rfl, fun p hp => ?_⟩
  obtain rfl := List.mem_singleton.mp hp
  rw [htable]
  exact subset_rfl

/-- A call that is served leaves the slots as they should be. -/
theorem sound_of_served {s s' : Slots.System} {e : Slots.Event} (hs : s.Sound) (hpl : s.Placed)
    (hserved : e.Served s) (hst : Slots.Step s e s') : s'.Sound ∧ s'.Placed := by
  obtain ⟨hiff, hplaced⟩ := Slots.System.served_iff hs hpl hst
  exact ⟨hiff.mp hserved, hplaced (hiff.mp hserved)⟩

/-- The slots are in the slots region. -/
theorem range_subset_span (hk : k.Linked high) (hs : k.slots.Sound) {r : Slots.Result}
    (hr : r ∈ k.slots.results) :
    r.range k.slots.gc.slotSize ⊆ (k.mem.table mmSlots).span := by
  intro x hx
  obtain ⟨p, hp, hxp⟩ := hs.inside r hr x hx
  exact hk.pages p hp hxp

/-- **Slots apart from everything else**: in every run from `kscm_init_paging` and `kscm_init_gc` on
whose calls for slots are served, however heap and stack grow in between, the ranges returned are as
they should be, and each of them lies in the slots region and meets no other one. -/
theorem slots_in_region {ext : BitVec 16} {dir : ℕ → ℕ} {size : ℕ} (hpos : 0 < size)
    (hle : size ≤ kPgSize) (h₀ : kscmInitPaging (highMemory ext) dir = some m)
    (hr : Runs (Guarded Event.Served (Step (highMemory ext))) ⟨m, initial size⟩ events k) :
    k.slots.Sound ∧ ∀ r ∈ k.slots.results,
      r.range k.slots.gc.slotSize ⊆ (k.mem.table mmSlots).span ∧
        ∀ i ≤ 4, i ≠ mmSlots →
          Disjoint (r.range k.slots.gc.slotSize) (k.mem.table i).span := by
  obtain ⟨hk, hrun⟩ := linked_run (highMemory_le ext) hr (linked_init h₀)
  have hsound := hrun.guarded_invariant
    (fun _ _ _ hI hserved hst => sound_of_served hI.1 hI.2 hserved hst)
    (Slots.initial_spec hpos hle)
  refine ⟨hsound.1, fun r hmem => ⟨range_subset_span hk hsound.1 hmem, fun i hi hne => ?_⟩⟩
  exact (hk.paged.disjoint (by decide) hi hne.symm).mono_left
    (range_subset_span hk hsound.1 hmem)

/-- Slots of 16 bytes: the heap is grown, and three slots are taken. -/
theorem slots_in_region_three : ∃ m q k,
    kscmInitPaging (highMemory 1024#16) (fun _ => 0) = some m ∧
      Runs (Guarded Event.Served (Step (highMemory 1024#16))) ⟨m, initial 16⟩
        [.expand mmHeap q, .alloc ⟨.nobj 3, 0⟩] k ∧
      ∀ r ∈ k.slots.results, Disjoint (r.range 16) (k.mem.table mmHeap).span := by
  obtain ⟨m, h₀, -, hm⟩ := exists_kscmInitPaging (highMemory 1024#16) fun _ => 0
  have hheap : mmHeap ∈ growing := by decide
  obtain ⟨q, t, -, hexp⟩ := exists_expands (highMemory_le 1024#16) hm hheap
  have hfree : 3 ≤ (initial 16).gc.freeNslots := by decide
  have hrun : Runs (Guarded Event.Served (Step (highMemory 1024#16))) ⟨m, initial 16⟩
      [.expand mmHeap q, .alloc ⟨.nobj 3, 0⟩] _ :=
    .cons ⟨trivial, .expand (Or.inl rfl) hexp⟩
      (.single ⟨.inr ⟨Nat.lt_irrefl kSlotsStart, .inl hfree⟩, .enough hfree (by decide) rfl⟩)
  have hregion := slots_in_region (by decide) (by decide) h₀ hrun
  exact ⟨m, q, _, h₀, hrun, fun r hr => (hregion.2 r hr).2 mmHeap (by decide) (by decide)⟩

end SchemeOs.SlotPages
