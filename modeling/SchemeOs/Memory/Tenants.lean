import SchemeOs.Allocator.HeapPages
import SchemeOs.Collector.SlotPages

/-!
# Memory/Tenants — the allocator and the collector in one memory

`lib/malloc.c` and `mm/gc.c` share the frames and the region table of `mm/memory.c` with the stack.
A call of one is, for the other, some growing of a region that it does not own.
-/

namespace SchemeOs.Tenants

open Memory
open Slots (System initial)

/-! ## The system

The memory of the kernel, and on it the allocator, the slots, and `expand_region` for the stack. -/

/-- The memory, the allocator and the slots. -/
structure Kernel where
  mem : Mem
  alloc : Malloc.Sys
  slots : System

/-- `expand_region` for the stack, which returns `q`, or a call of the allocator, or for slots. -/
inductive Event where
  | stack (q : ℕ)
  | alloc (call : Malloc.Call)
  | slots (e : Slots.Event)

inductive Step (high : ℕ) (expand : ℕ → Bool) : Kernel → Event → Kernel → Prop where
  | stack {k : Kernel} {m : Mem} {q : ℕ} : expandRegion high mmStack k.mem = some (q, m) →
      Step high expand k (.stack q) ⟨m, k.alloc, k.slots⟩
  | alloc {k : Kernel} {m : Mem} {call : Malloc.Call} {s : Malloc.Sys} :
      HeapPages.Step high expand ⟨k.mem, k.alloc⟩ (.alloc call) ⟨m, s⟩ →
      Step high expand k (.alloc call) ⟨m, s, k.slots⟩
  | slots {k : Kernel} {m : Mem} {e : Slots.Event} {s : System} :
      SlotPages.Step high ⟨k.mem, k.slots⟩ (.alloc e) ⟨m, s⟩ →
      Step high expand k (.slots e) ⟨m, k.alloc, s⟩

/-- Calls of the allocator run into no slip, and calls for slots are served. -/
def Event.Sound (expand : ℕ → Bool) (k : Kernel) : Event → Prop
  | .stack _ => True
  | .alloc call => Malloc.Sound expand k.alloc call
  | .slots e => e.Served k.slots

/-- The bytes of live blocks and of slots are apart, and none of them is in the stack. -/
structure Apart (k : Kernel) : Prop where
  blocks : Malloc.Safe k.alloc
  slots : k.slots.Sound
  disjoint : ∀ b ∈ k.alloc.live, ∀ r ∈ k.slots.results,
    Disjoint (HeapPages.bytes k.alloc.heap b) (r.range k.slots.gc.slotSize)
  stack_blocks : ∀ b ∈ k.alloc.live,
    Disjoint (HeapPages.bytes k.alloc.heap b) (k.mem.table mmStack).span
  stack_slots : ∀ r ∈ k.slots.results,
    Disjoint (r.range k.slots.gc.slotSize) (k.mem.table mmStack).span

/-! ## The invariant -/

/-- What each of the two keeps for itself. -/
structure Inv (high : ℕ) (expand : ℕ → Bool) (k : Kernel) : Prop where
  heap : HeapPages.Inv high expand ⟨k.mem, k.alloc⟩
  linked : SlotPages.Kernel.Linked high ⟨k.mem, k.slots⟩
  sound : k.slots.Sound
  placed : k.slots.Placed

variable {high n n' : ℕ} {expand : ℕ → Bool} {k k' : Kernel} {m m' : Mem} {e : Event} {s : System}
variable {events : List Event}

/-- The pages that the allocator asks for leave the slots as they are. -/
theorem linked_of_answered (hhigh : high ≤ 68156416)
    (ha : HeapPages.Answered high expand m n m' n')
    (hk : SlotPages.Kernel.Linked high ⟨m, s⟩) : SlotPages.Kernel.Linked high ⟨m', s⟩ := by
  induction ha with
  | done m n => exact hk
  | asked hexp _ _ ih =>
    exact ih (SlotPages.linked_step hhigh hk (.expand (Or.inl rfl) hexp)).1

/-- A call for slots leaves the heap as it is. -/
theorem heap_of_slots {slots slots' : System} {alloc : Malloc.Sys} {e : Slots.Event}
    (hhigh : high ≤ 68156416) (hi : HeapPages.Inv high expand ⟨m, alloc⟩)
    (hst : SlotPages.Step high ⟨m, slots⟩ (.alloc e) ⟨m', slots'⟩) :
    HeapPages.Inv high expand ⟨m', alloc⟩ := by
  cases hst with
  | alloc _ _ hexp => exact hi.other hhigh (Or.inr rfl) hexp
  | enough => exact hi

/-- **The step lemma**: a sound call keeps the invariants of both. -/
theorem inv_step (hhigh : high ≤ 68156416) (hi : Inv high expand k) (hok : e.Sound expand k)
    (hst : Step high expand k e k') : Inv high expand k' := by
  cases hst with
  | stack hexp =>
    exact ⟨hi.heap.other hhigh (Or.inl rfl) hexp,
      (SlotPages.linked_step hhigh hi.linked (.expand (Or.inr rfl) hexp)).1, hi.sound, hi.placed⟩
  | @alloc m call s hst =>
    have hcall : HeapPages.Event.Sound expand ⟨k.mem, k.alloc⟩ (.alloc call) := hok
    have hheap := HeapPages.inv_step hhigh hi.heap hcall hst
    cases hst with
    | alloc _ hanswered =>
      exact ⟨hheap, linked_of_answered hhigh hanswered hi.linked, hi.sound, hi.placed⟩
  | slots hst =>
    obtain ⟨hlinked, hacts⟩ := SlotPages.linked_step hhigh hi.linked hst
    obtain ⟨hsound, hplaced⟩ := SlotPages.sound_of_served hi.sound hi.placed hok hacts
    exact ⟨heap_of_slots hhigh hi.heap hst, hlinked, hsound, hplaced⟩

/-- **The invariant keeps the tenants apart.** -/
theorem Inv.apart (hi : Inv high expand k) : Apart k := by
  obtain ⟨ring, hring⟩ := hi.heap.blocks
  have hpaged := hi.linked.paged
  have hblock : ∀ b ∈ k.alloc.live, HeapPages.bytes k.alloc.heap b ⊆ (k.mem.table mmHeap).span :=
    fun b hb => HeapPages.bytes_subset_span hi.heap hb
  have hslot : ∀ r ∈ k.slots.results,
      r.range k.slots.gc.slotSize ⊆ (k.mem.table mmSlots).span :=
    fun r hr => SlotPages.range_subset_span hi.linked hi.sound hr
  exact {
    blocks := hring.safe
    slots := hi.sound
    disjoint := fun b hb r hr =>
      (hpaged.disjoint (by decide) (by decide) (by decide)).mono (hblock b hb) (hslot r hr)
    stack_blocks := fun b hb =>
      (hpaged.disjoint (by decide) (by decide) (by decide)).mono_left (hblock b hb)
    stack_slots := fun r hr =>
      (hpaged.disjoint (by decide) (by decide) (by decide)).mono_left (hslot r hr) }

/-! ## Runs -/

/-- **Nothing is handed out twice**: in every run from `kscm_init_paging`, `kscm_init_heap` and
`kscm_init_gc` that interleaves calls of `kmalloc` and `kfree` without a slip, calls for slots that
are served, and growing of the stack, blocks, slots and stack are apart. -/
theorem apart_of_run {ext : BitVec 16} {dir : ℕ → ℕ} {size : ℕ} {mem : ℕ → Malloc.Header}
    (hpos : 0 < size) (hle : size ≤ kPgSize)
    (h₀ : kscmInitPaging (highMemory ext) dir = some m)
    (hr : Runs (Guarded (fun k e => e.Sound expand k) (Step (highMemory ext) expand))
      ⟨m, Malloc.Sys.init mem, initial size⟩ events k) : Apart k := by
  have hhigh := highMemory_le ext
  obtain ⟨hsound, hplaced⟩ := Slots.initial_spec hpos hle
  have hinit : Inv (highMemory ext) expand ⟨m, Malloc.Sys.init mem, initial size⟩ :=
    ⟨HeapPages.inv_init mem h₀, SlotPages.linked_init h₀, hsound, hplaced⟩
  exact (hr.guarded_invariant (fun _ _ _ hi hok hst => inv_step hhigh hi hok hst) hinit).apart

/-- The stack is grown, and a block of 8 bytes and three slots of 16 bytes are taken. -/
theorem apart_of_run_three : ∃ m q k, kscmInitPaging (highMemory 1024#16) (fun _ => 0) = some m ∧
    Runs (Guarded (fun k e => e.Sound (fun _ => true) k)
      (Step (highMemory 1024#16) fun _ => true)) ⟨m, Malloc.Sys.init fun _ => ⟨0, 0⟩, initial 16⟩
      [.stack q, .alloc (.kmalloc 8), .slots ⟨.nobj 3, 0⟩] k ∧ Apart k := by
  obtain ⟨m, h₀, -, hm⟩ := exists_kscmInitPaging (highMemory 1024#16) fun _ => 0
  have hstack : mmStack ∈ growing := by decide
  obtain ⟨q, m', -, hexp⟩ := exists_expands (highMemory_le 1024#16) hm hstack
  obtain ⟨s, hs, hnone⟩ := Option.map_eq_some_iff.mp
    (show (Malloc.exec (fun _ => true) 1 (Malloc.Sys.init fun _ => ⟨0, 0⟩) (.kmalloc 8)).map
      (fun s => s.heap.expansions) = some 0 by decide +kernel)
  have hanswered :
      HeapPages.Answered (highMemory 1024#16) (fun _ => true) m' 0 m' s.heap.expansions := by
    rw [hnone]
    exact .done m' 0
  have hfree : 3 ≤ (initial 16).gc.freeNslots := by decide
  have hrun : Runs (Guarded (fun k e => e.Sound (fun _ => true) k)
      (Step (highMemory 1024#16) fun _ => true)) ⟨m, Malloc.Sys.init fun _ => ⟨0, 0⟩, initial 16⟩
      [.stack q, .alloc (.kmalloc 8), .slots ⟨.nobj 3, 0⟩] _ :=
    .cons ⟨trivial, .stack hexp⟩
      (.cons ⟨Malloc.sound_init _ 8, .alloc (.alloc (Malloc.exec_step hs) hanswered)⟩
        (.single ⟨.inr ⟨Nat.lt_irrefl kSlotsStart, .inl hfree⟩,
          .slots (.enough hfree (by decide) rfl)⟩))
  exact ⟨m, q, _, h₀, hrun, apart_of_run (by decide) (by decide) h₀ hrun⟩

end SchemeOs.Tenants
