import SchemeOs.Allocator.MallocSafety
import SchemeOs.Memory.Answers

/-!
# Allocator/HeapPages — the blocks of `lib/malloc.c` in the memory of `mm/memory.c`

`kmalloc` calls `expand_region` as often as its search asks for a page, and between the calls of the
allocator the stack and the slots are grown.  The end of the heap is counted twice, by the allocator
in the pages that it got and by the region table in those that it gave or failed to give.  The two
differ only once no page is given any more, and blocks lie below both.
-/

namespace SchemeOs.HeapPages

open Memory (Mem Paged Final Expands expandRegion growing mmHeap mmStack mmSlots kscmInitPaging
  highMemory pagesIn)
open Malloc (headerSize pageUnits)

/-! ## The system

The allocator and the region table run together, and `expand_region` answers the allocator. -/

/-- The memory, and the allocator with its live blocks. -/
structure Kernel where
  mem : Mem
  alloc : Malloc.Sys

/-- `expand_region` for the stack or the slots, which returns `q`, or a call of the allocator. -/
inductive Event where
  | expand (region q : ℕ)
  | alloc (call : Malloc.Call)

/-- `expand_region(mm_heap)` called from the `n`-th to the `n'`-th time, with the answers that
`expand` foretells. -/
inductive Answered (high : ℕ) (expand : ℕ → Bool) : Mem → ℕ → Mem → ℕ → Prop where
  | done (m : Mem) (n : ℕ) : Answered high expand m n m n
  | asked {m m₁ m' : Mem} {n n' q : ℕ} : expandRegion high mmHeap m = some (q, m₁) →
      expand n = decide (q ≠ 0) → Answered high expand m₁ (n + 1) m' n' →
      Answered high expand m n m' n'

/-- One call; the allocator gets the answers that the memory gives. -/
inductive Step (high : ℕ) (expand : ℕ → Bool) : Kernel → Event → Kernel → Prop where
  | expand {k : Kernel} {m : Mem} {region q : ℕ} : region = mmStack ∨ region = mmSlots →
      expandRegion high region k.mem = some (q, m) →
      Step high expand k (.expand region q) ⟨m, k.alloc⟩
  | alloc {k : Kernel} {m : Mem} {call : Malloc.Call} {s : Malloc.Sys} :
      Malloc.Step expand k.alloc call s →
      Answered high expand k.mem k.alloc.heap.expansions m s.heap.expansions →
      Step high expand k (.alloc call) ⟨m, s⟩

/-- The calls that do not run into a slip. -/
def Event.Sound (expand : ℕ → Bool) (k : Kernel) : Event → Prop
  | .expand _ _ => True
  | .alloc call => Malloc.Sound expand k.alloc call

/-- The bytes of the block at `b`, header included. -/
def bytes (h : Malloc.Heap) (b : ℕ) : Set ℕ :=
  Set.Ico (headerSize * b) (headerSize * (b + h.size b))

/-! ## The end of the heap

The allocator counts the pages that it was granted, and the table counts the same. -/

/-- How many of the first `n` calls get a page. -/
def granted (expand : ℕ → Bool) (n : ℕ) : ℕ := Nat.count (fun i => expand i = true) n

/-- The heap ends behind its first page and the pages that it got. -/
def Counted (expand : ℕ → Bool) (h : Malloc.Heap) : Prop :=
  h.heapEnd = Malloc.kHeapStart + pageUnits * (1 + granted expand h.expansions)

variable {expand : ℕ → Bool} {h h' : Malloc.Heap} {s s' : Malloc.Sys} {call : Malloc.Call}
variable {nunits q p ptr fuel nbytes high n n' : ℕ} {m m' : Mem} {k k' : Kernel} {e : Event}
variable {events : List Event}

theorem granted_succ (expand : ℕ → Bool) (n : ℕ) :
    granted expand (n + 1) = granted expand n + if expand n = true then 1 else 0 :=
  Nat.count_succ _ _

theorem counted_askedPage (hc : Counted expand h) :
    Counted expand (h.askedPage (expand h.expansions)) := by
  unfold Counted at *
  simp only [Malloc.Heap.askedPage, granted_succ]
  by_cases hyes : expand h.expansions = true
  · rw [if_pos hyes, if_pos hyes, hc, ← Nat.add_assoc, Nat.mul_succ, Nat.add_assoc]
  · rw [if_neg hyes, if_neg hyes, hc, Nat.add_zero]

theorem counted_searches (hs : Malloc.Searches expand nunits h q p ptr h')
    (hc : Counted expand h) : Counted expand h' := by
  induction hs with
  | whole _ =>
    unfold Malloc.takeWhole
    split_ifs <;> exact hc
  | tail _ => exact hc
  | refused _ _ => exact counted_askedPage hc
  | page _ hyes _ ih =>
    have hpage := counted_askedPage hc
    rw [hyes] at hpage
    exact ih hpage
  | next _ _ _ ih => exact ih hc

theorem counted_kmalloc (hm : Malloc.kmalloc expand fuel nbytes h = some (ptr, h'))
    (hc : Counted expand h) : Counted expand h' := by
  refine counted_searches (Malloc.searches_of_search hm) ?_
  unfold Malloc.refill
  split_ifs
  · exact counted_askedPage hc
  · exact hc

theorem counted_kfree (hf : Malloc.kfree fuel ptr h = some h') (hc : Counted expand h) :
    Counted expand h' := by
  obtain ⟨p, -, rfl⟩ := Option.map_eq_some_iff.mp hf
  unfold Malloc.joinUpper Malloc.joinLower
  split_ifs <;> exact hc

theorem counted_step (hst : Malloc.Step expand s call s') (hc : Counted expand s.heap) :
    Counted expand s'.heap := by
  cases hst with
  | kmalloc _ hm _ => exact counted_kmalloc hm hc
  | kmalloc_null _ hm => exact counted_kmalloc hm hc
  | kfree _ _ hf => exact counted_kfree hf hc
  | write _ => exact hc

/-! ## The pages of the heap -/

/-- The table has the pages that were given and, once none is given any more, those that failed. -/
structure Tabled (high : ℕ) (expand : ℕ → Bool) (m : Mem) (n : ℕ) : Prop where
  paged : Paged high m
  le : 1 + granted expand n ≤ pagesIn mmHeap m.table
  eq : ¬ Final high mmHeap m → pagesIn mmHeap m.table = 1 + granted expand n

theorem heap_growing : mmHeap ∈ growing := by decide

/-- One more answer for the heap. -/
theorem Tabled.asked (hhigh : high ≤ 68156416) (ht : Tabled high expand m n)
    (hexp : expandRegion high mmHeap m = some (q, m')) (hq : expand n = decide (q ≠ 0)) :
    Tabled high expand m' (n + 1) := by
  have hst : Expands high m (mmHeap, q) m' := ⟨heap_growing, hexp⟩
  have hm' := (Memory.expands_step hhigh ht.paged hst).1
  obtain ⟨hself, -⟩ := Memory.answer_step hhigh ht.paged hst
  by_cases hzero : q = 0
  · have hfinal : Final high mmHeap m' := by
      by_contra hnot
      rcases hself with ⟨-, hfinal⟩ | ⟨hpage, -⟩
      · exact hnot hfinal
      · have hpos : 0 < Memory.pageOf mmHeap (pagesIn mmHeap m.table) :=
          Nat.add_pos_left (by decide) _
        exact hpos.ne (hzero.symm.trans hpage)
    have hnone : granted expand (n + 1) = granted expand n := by
      rw [granted_succ, hq, if_neg (by simp [hzero]), Nat.add_zero]
    refine ⟨hm', ?_, fun hnot => absurd hfinal hnot⟩
    rw [hnone]
    exact ht.le.trans (Memory.pagesIn_le hhigh ht.paged hst heap_growing)
  · have hopen : ¬ Final high mmHeap m := fun hfinal =>
      hzero ((Memory.final_step hhigh ht.paged heap_growing hfinal hst).2 rfl)
    have hone : granted expand (n + 1) = granted expand n + 1 := by
      rw [granted_succ, hq, if_pos (by simp [hzero])]
    obtain ⟨hnull, -⟩ | ⟨-, hpages⟩ := hself
    · exact absurd hnull hzero
    · have hpages' : pagesIn mmHeap m'.table = 1 + granted expand (n + 1) := by
        rw [hone, ← Nat.add_assoc, ← ht.eq hopen]
        exact hpages
      exact ⟨hm', hpages'.ge, fun _ => hpages'⟩

theorem Tabled.answered (hhigh : high ≤ 68156416) (ha : Answered high expand m n m' n')
    (ht : Tabled high expand m n) : Tabled high expand m' n' := by
  induction ha with
  | done m n => exact ht
  | asked hexp hq _ ih => exact ih (ht.asked hhigh hexp hq)

/-- An answer for another region. -/
theorem Tabled.other {region : ℕ} (hhigh : high ≤ 68156416) (ht : Tabled high expand m n)
    (hr : region = mmStack ∨ region = mmSlots)
    (hexp : expandRegion high region m = some (q, m')) : Tabled high expand m' n := by
  have hgrowing : region ∈ growing := by rcases hr with rfl | rfl <;> decide
  have hne : mmHeap ≠ region := by rcases hr with rfl | rfl <;> decide
  have hst : Expands high m (region, q) m' := ⟨hgrowing, hexp⟩
  have hsame : pagesIn mmHeap m'.table = pagesIn mmHeap m.table :=
    (Memory.answer_step hhigh ht.paged hst).2 mmHeap heap_growing hne
  refine ⟨(Memory.expands_step hhigh ht.paged hst).1, hsame ▸ ht.le, fun hopen => ?_⟩
  rw [hsame]
  exact ht.eq fun hfinal =>
    hopen (Memory.final_step hhigh ht.paged heap_growing hfinal hst).1

/-! ## Runs -/

/-- The invariant: the allocator's, and the two counts. -/
structure Inv (high : ℕ) (expand : ℕ → Bool) (k : Kernel) : Prop where
  blocks : ∃ ring, Malloc.Inv k.alloc.heap ring k.alloc.live
  counted : Counted expand k.alloc.heap
  tabled : Tabled high expand k.mem k.alloc.heap.expansions

theorem inv_init {ext : BitVec 16} {dir : ℕ → ℕ} (mem : ℕ → Malloc.Header)
    (h₀ : kscmInitPaging (highMemory ext) dir = some m) :
    Inv (highMemory ext) expand ⟨m, Malloc.Sys.init mem⟩ := by
  obtain ⟨m', hm', htable, hm⟩ := Memory.exists_kscmInitPaging (highMemory ext) dir
  obtain rfl := Option.some.inj (h₀.symm.trans hm')
  have hpages : pagesIn mmHeap m.table = 1 := by
    rw [htable]
    decide
  have hnone : granted expand 0 = 0 := Nat.count_zero _
  refine ⟨⟨_, Malloc.inv_init mem⟩, ?_, hm, ?_, fun _ => ?_⟩
  · change Malloc.kHeapStart + pageUnits = Malloc.kHeapStart + pageUnits * (1 + granted expand 0)
    rw [hnone, Nat.mul_one]
  · exact (congrArg (1 + ·) hnone).le.trans hpages.ge
  · exact hpages.trans (congrArg (1 + ·) hnone).symm

/-- Growing another region keeps the invariant. -/
theorem Inv.other {region : ℕ} (hhigh : high ≤ 68156416) (hi : Inv high expand k)
    (hr : region = mmStack ∨ region = mmSlots)
    (hexp : expandRegion high region k.mem = some (q, m)) : Inv high expand ⟨m, k.alloc⟩ :=
  ⟨hi.blocks, hi.counted, hi.tabled.other hhigh hr hexp⟩

/-- **The step lemma**: a sound call keeps the invariant. -/
theorem inv_step (hhigh : high ≤ 68156416) (hi : Inv high expand k) (hok : e.Sound expand k)
    (hst : Step high expand k e k') : Inv high expand k' := by
  cases hst with
  | expand hr hexp => exact hi.other hhigh hr hexp
  | alloc hcall hanswered =>
    obtain ⟨ring, hring⟩ := hi.blocks
    exact ⟨Malloc.step_inv hring hok hcall, counted_step hcall hi.counted,
      hi.tabled.answered hhigh hanswered⟩

/-- The heap of the allocator is in the heap region. -/
theorem mem_span (hi : Inv high expand k) {x : ℕ} (hstart : headerSize * Malloc.kHeapStart ≤ x)
    (hend : x < headerSize * k.alloc.heap.heapEnd) : x ∈ (k.mem.table mmHeap).span := by
  have hkstart : Malloc.kHeapStart = 0x100000 := by decide +kernel
  have hunits : pageUnits = 512 := by decide +kernel
  obtain ⟨h, n, l, hs⟩ := hi.tabled.paged.shape
  have hle := hi.tabled.le
  rw [hs.pagesIn_heap] at hle
  rw [hi.counted, hkstart, hunits, headerSize] at hend
  rw [hkstart, headerSize] at hstart
  refine (hs.mem_span (by decide)).mpr (Or.inr (Or.inl ⟨rfl, by omega, by omega⟩))

/-- Live blocks are in the heap region. -/
theorem bytes_subset_span (hi : Inv high expand k) {b : ℕ} (hb : b ∈ k.alloc.live) :
    bytes k.alloc.heap b ⊆ (k.mem.table mmHeap).span := by
  intro x hx
  obtain ⟨ring, hring⟩ := hi.blocks
  obtain ⟨hlow, hup⟩ := Set.mem_Ico.mp hx
  have hunit : x / headerSize ∈ k.alloc.heap.units b := by
    rw [headerSize] at hlow hup ⊢
    exact Set.mem_Ico.mpr ⟨by omega, by omega⟩
  obtain ⟨hstart, hend⟩ := Set.mem_Ico.mp (hring.safe.inside b hb hunit)
  rw [headerSize] at hstart hend
  refine mem_span hi ?_ ?_ <;>
  · rw [headerSize]
    omega

/-- **Blocks apart from everything else**: in every run from `kscm_init_paging` and `kscm_init_heap`
whose calls of the allocator are sound, however stack and slots grow in between, live blocks are
safe, and each of them lies in the heap region and meets no other one. -/
theorem blocks_in_region {ext : BitVec 16} {dir : ℕ → ℕ} {mem : ℕ → Malloc.Header}
    (h₀ : kscmInitPaging (highMemory ext) dir = some m)
    (hr : Runs (Guarded (fun k e => e.Sound expand k) (Step (highMemory ext) expand))
      ⟨m, Malloc.Sys.init mem⟩ events k) :
    Malloc.Safe k.alloc ∧ ∀ b ∈ k.alloc.live,
      bytes k.alloc.heap b ⊆ (k.mem.table mmHeap).span ∧
        ∀ i ≤ 4, i ≠ mmHeap → Disjoint (bytes k.alloc.heap b) (k.mem.table i).span := by
  have hhigh := Memory.highMemory_le ext
  have hi := hr.guarded_invariant (fun _ _ _ hi hok hst => inv_step hhigh hi hok hst)
    (inv_init mem h₀)
  obtain ⟨ring, hring⟩ := hi.blocks
  refine ⟨hring.safe, fun b hb => ⟨bytes_subset_span hi hb, fun i hle hne => ?_⟩⟩
  exact (hi.tabled.paged.disjoint (by decide) hle hne.symm).mono_left (bytes_subset_span hi hb)

/-- The slots are grown, and a block of 8 bytes is taken. -/
theorem blocks_in_region_one : ∃ m q k, kscmInitPaging (highMemory 1024#16) (fun _ => 0) = some m ∧
    Runs (Guarded (fun k e => e.Sound (fun _ => true) k)
      (Step (highMemory 1024#16) fun _ => true)) ⟨m, Malloc.Sys.init fun _ => ⟨0, 0⟩⟩
      [.expand mmSlots q, .alloc (.kmalloc 8)] k ∧ Malloc.Safe k.alloc := by
  obtain ⟨m, h₀, -, hm⟩ := Memory.exists_kscmInitPaging (highMemory 1024#16) fun _ => 0
  have hslots : mmSlots ∈ growing := by decide
  obtain ⟨q, m', -, hexp⟩ := Memory.exists_expands (Memory.highMemory_le 1024#16) hm hslots
  obtain ⟨s, hs, hnone⟩ := Option.map_eq_some_iff.mp
    (show (Malloc.exec (fun _ => true) 1 (Malloc.Sys.init fun _ => ⟨0, 0⟩) (.kmalloc 8)).map
      (fun s => s.heap.expansions) = some 0 by decide +kernel)
  have hanswered : Answered (highMemory 1024#16) (fun _ => true) m' 0 m' s.heap.expansions := by
    rw [hnone]
    exact .done m' 0
  have hrun : Runs (Guarded (fun k e => e.Sound (fun _ => true) k)
      (Step (highMemory 1024#16) fun _ => true)) ⟨m, Malloc.Sys.init fun _ => ⟨0, 0⟩⟩
      [.expand mmSlots q, .alloc (.kmalloc 8)] ⟨m', s⟩ :=
    .cons ⟨trivial, .expand (Or.inr rfl) hexp⟩
      (.single ⟨Malloc.sound_init _ 8, .alloc (Malloc.exec_step hs) hanswered⟩)
  exact ⟨m, q, ⟨m', s⟩, h₀, hrun, (blocks_in_region h₀ hrun).1⟩

end SchemeOs.HeapPages
