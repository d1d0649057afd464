import Mathlib
import SchemeOs.Machinery.Runs

/-!
# Allocator/Malloc — the first-fit allocator of `lib/malloc.c`

Free blocks hang on a circular list threaded through their headers; `_g_free_mem_list` names one of
them.  Addresses are counted in units of `sizeof(fm_header_t)`, so a block at `p` is the units
`p, p + 1, …` and `kmalloc` returns `p + 1`.  The memory maps a unit to the two header fields stored
there, whatever it is used for.

Both loops of the source take fuel: `none` is a search that has not come to an end yet.  The only
foreign call is `expand_region(mm_heap)`; `expand n` says whether its `n`-th call succeeds, and if
it does it hands out the page just above those the allocator has got.  The region table may count
more pages than these, since a call that is refused a frame has lengthened the region before it
returns `NULL`.
-/

namespace SchemeOs.Malloc

/-- `sizeof(fm_header_t)`. -/
def headerSize : ℕ := 8

/-- `K_PG_SIZE`. -/
def kPgSize : ℕ := 4096

/-- `K_HEAP_START`, as a unit. -/
@[irreducible] def kHeapStart : ℕ := 0x800000 / headerSize

/-- The size written in the header of a fresh page, `(K_PG_SIZE - 1) / sizeof(fm_header_t) + 1`. -/
@[irreducible] def pageUnits : ℕ := (kPgSize - 1) / headerSize + 1

theorem kHeapStart_pos : 0 < kHeapStart := by decide +kernel

theorem pageUnits_pos : 0 < pageUnits := by decide +kernel

/-- `fm_header_t`: the size of a block in units, and the next free block. -/
@[ext]
structure Header where
  size : ℕ
  next : ℕ
  deriving DecidableEq, Repr

/-- The memory, `_g_free_mem_list`, the end of the pages that the allocator has got, and how often
it has asked for one. -/
structure Heap where
  mem : ℕ → Header
  freeMemList : ℕ
  heapEnd : ℕ
  expansions : ℕ

namespace Heap

variable (h : Heap) (p q n x : ℕ)

/-- `p->size`. -/
def size : ℕ := (h.mem p).size

/-- `p->next`. -/
def next : ℕ := (h.mem p).next

/-- `p->size = n`. -/
def setSize : Heap := { h with mem := Function.update h.mem p { h.mem p with size := n } }

/-- `p->next = n`. -/
def setNext : Heap := { h with mem := Function.update h.mem p { h.mem p with next := n } }

/-- `_g_free_mem_list = p`. -/
def setList : Heap := { h with freeMemList := p }

/-- A page was asked for: the allocator has one more if that succeeds. -/
def askedPage (granted : Bool) : Heap where
  mem := h.mem
  freeMemList := h.freeMemList
  heapEnd := if granted then h.heapEnd + pageUnits else h.heapEnd
  expansions := h.expansions + 1

theorem size_mk_update (mem : ℕ → Header) (v : Header) (l e k : ℕ) :
    (Heap.mk (Function.update mem p v) l e k).size
      = Function.update (fun x => (mem x).size) p v.size := by
  funext x
  by_cases hx : x = p
  · subst hx; simp [size]
  · simp [size, Function.update_of_ne hx]

theorem next_mk_update (mem : ℕ → Header) (v : Header) (l e k : ℕ) :
    (Heap.mk (Function.update mem p v) l e k).next
      = Function.update (fun x => (mem x).next) p v.next := by
  funext x
  by_cases hx : x = p
  · subst hx; simp [next]
  · simp [next, Function.update_of_ne hx]

@[simp] theorem freeMemList_setSize : (h.setSize p n).freeMemList = h.freeMemList := rfl
@[simp] theorem freeMemList_setNext : (h.setNext p n).freeMemList = h.freeMemList := rfl
@[simp] theorem freeMemList_setList : (h.setList p).freeMemList = p := rfl
@[simp] theorem heapEnd_setSize : (h.setSize p n).heapEnd = h.heapEnd := rfl
@[simp] theorem heapEnd_setNext : (h.setNext p n).heapEnd = h.heapEnd := rfl
@[simp] theorem heapEnd_setList : (h.setList p).heapEnd = h.heapEnd := rfl
@[simp] theorem size_setList : (h.setList p).size = h.size := rfl
@[simp] theorem next_setList : (h.setList p).next = h.next := rfl
@[simp] theorem size_askedPage (b : Bool) : (h.askedPage b).size = h.size := rfl
@[simp] theorem next_askedPage (b : Bool) : (h.askedPage b).next = h.next := rfl
@[simp] theorem freeMemList_askedPage (b : Bool) :
    (h.askedPage b).freeMemList = h.freeMemList := rfl
@[simp] theorem heapEnd_askedPage_true : (h.askedPage true).heapEnd = h.heapEnd + pageUnits := rfl
@[simp] theorem heapEnd_askedPage_false : (h.askedPage false).heapEnd = h.heapEnd := rfl

@[simp] theorem size_setSize : (h.setSize p n).size = Function.update h.size p n :=
  size_mk_update p h.mem ..

@[simp] theorem next_setNext : (h.setNext p n).next = Function.update h.next p n :=
  next_mk_update p h.mem ..

@[simp] theorem size_setNext : (h.setNext p n).size = h.size := by
  refine (size_mk_update p h.mem ..).trans ?_
  exact Function.update_eq_self p h.size

@[simp] theorem next_setSize : (h.setSize p n).next = h.next := by
  refine (next_mk_update p h.mem ..).trans ?_
  exact Function.update_eq_self p h.next

end Heap

/-- `kscm_init_heap`: the first page is one free block, alone on its ring. -/
def kscmInitHeap (mem : ℕ → Header) : Heap where
  mem := Function.update mem kHeapStart ⟨pageUnits, kHeapStart⟩
  freeMemList := kHeapStart
  heapEnd := kHeapStart + pageUnits
  expansions := 0

@[simp] theorem size_kscmInitHeap (mem : ℕ → Header) :
    (kscmInitHeap mem).size = Function.update (fun x => (mem x).size) kHeapStart pageUnits :=
  Heap.size_mk_update kHeapStart mem ..

@[simp] theorem next_kscmInitHeap (mem : ℕ → Header) :
    (kscmInitHeap mem).next = Function.update (fun x => (mem x).next) kHeapStart kHeapStart :=
  Heap.next_mk_update kHeapStart mem ..

/-- `expand_region(mm_heap)`: `NULL`, or the page at the end of the heap. -/
def expandRegion (expand : ℕ → Bool) (h : Heap) : ℕ × Heap :=
  (if expand h.expansions then h.heapEnd else 0, h.askedPage (expand h.expansions))

/-- The end of the heap region in the region table after `n` calls of `expand_region`.  A call that
finds the region full leaves it; every other one adds a page, whether `put_page` then has a frame
for it or not. -/
def regionEnd (full : ℕ → Bool) : ℕ → ℕ
  | 0 => kHeapStart + pageUnits
  | n + 1 => if full n then regionEnd full n else regionEnd full n + pageUnits

theorem regionEnd_succ_of_full {full : ℕ → Bool} {n : ℕ} (h : full n) :
    regionEnd full (n + 1) = regionEnd full n := if_pos h

theorem lt_regionEnd_succ {full : ℕ → Bool} {n : ℕ} (h : full n = false) :
    regionEnd full n < regionEnd full (n + 1) := by
  rw [regionEnd, if_neg (by simp [h])]
  exact Nat.lt_add_of_pos_right pageUnits_pos

theorem regionEnd_mono (full : ℕ → Bool) : Monotone (regionEnd full) := by
  refine monotone_nat_of_le_succ fun n => ?_
  cases h : full n with
  | true => exact (regionEnd_succ_of_full h).ge
  | false => exact (lt_regionEnd_succ h).le

/-- The units a request of `nbytes` takes, header included; `size_t` has 32 bits. -/
def nunitsOf (nbytes : ℕ) : ℕ := (nbytes + headerSize - 1) % 2 ^ 32 / headerSize + 1

/-- Take the block `p`, with predecessor `q`, which fits the request exactly. -/
def takeWhole (h : Heap) (q p : ℕ) : Heap :=
  if q = p then (h.setNext q (h.next p)).setList 0   -- last slot
  else h.setNext q (h.next p)

/-- Carve the request off the tail of the larger block `p`. -/
def takeTail (h : Heap) (nunits p : ℕ) : ℕ × Heap :=
  (p + (h.size p - nunits),
    (h.setSize p (h.size p - nunits)).setSize (p + (h.size p - nunits)) nunits)

/-- Hang the fresh page `ptr` between `q` and `p`. -/
def addPage (h : Heap) (q p ptr : ℕ) : Heap :=
  ((h.setNext q ptr).setSize ptr pageUnits).setNext ptr p

/-- The loop of `kmalloc`: `for (p = q->next; ; q = p, p = p->next)`. -/
def search (expand : ℕ → Bool) (nunits : ℕ) : ℕ → Heap → ℕ → ℕ → Option (ℕ × Heap)
  | 0, _, _, _ => none
  | fuel + 1, h, q, p =>
    if nunits ≤ h.size p then
      if h.size p = nunits then
        some (p + 1, takeWhole h q p)
      else
        some ((takeTail h nunits p).1 + 1, (takeTail h nunits p).2)
    else if p = h.freeMemList then
      if (expandRegion expand h).1 = 0 then
        some (0, (expandRegion expand h).2)
      else
        let h' := addPage (expandRegion expand h).2 q p (expandRegion expand h).1
        search expand nunits fuel h' p (h'.next p)
    else
      search expand nunits fuel h p (h.next p)

/-- The start of `kmalloc`: an empty list is refilled with a page, without a check that there is
one. -/
def refill (expand : ℕ → Bool) (h : Heap) : Heap :=
  if h.freeMemList = 0 then
    let ptr := (expandRegion expand h).1
    (((expandRegion expand h).2.setList ptr).setSize ptr pageUnits).setNext ptr ptr
  else
    h

/-- `kmalloc(nbytes)`: the pointer returned, and the heap afterwards. -/
def kmalloc (expand : ℕ → Bool) (fuel nbytes : ℕ) (h : Heap) : Option (ℕ × Heap) :=
  let h₁ := refill expand h
  search expand (nunitsOf nbytes) fuel h₁ h₁.freeMemList (h₁.next h₁.freeMemList)

/-- The loop of `kfree`, which looks for the free block `p` to put `bp` behind. -/
def place (h : Heap) (bp : ℕ) : ℕ → ℕ → Option ℕ
  | 0, _ => none
  | fuel + 1, p =>
    if p < bp ∧ bp < h.next p then some p
    else if h.next p ≤ p ∧ (p < bp ∨ bp < h.next p) then some p
    else place h bp fuel (h.next p)

/-- The first `if` of `kfree`: `bp` is melted into the block `p` below it, or hung behind `p`.
Yields the block `bp` stands for from here on. -/
def joinLower (h : Heap) (bp p : ℕ) : ℕ × Heap :=
  if p + h.size p = bp then (p, h.setSize p (h.size p + h.size bp))
  else (bp, h.setNext p bp)

/-- The second `if` of `kfree`: the block `p->next` is melted into `bp`, or stays behind it. -/
def joinUpper (h : Heap) (bp p : ℕ) : Heap :=
  if bp + h.size bp = h.next p then
    let h₁ := h.setSize bp (h.size bp + h.size (h.next p))
    h₁.setNext bp (h₁.next (h₁.next p))
  else h.setNext bp (h.next p)

/-- `kfree(ptr)`. -/
def kfree (fuel ptr : ℕ) (h : Heap) : Option Heap :=
  (place h (ptr - 1) fuel h.freeMemList).map fun p =>
    joinUpper (joinLower h (ptr - 1) p).2 (joinLower h (ptr - 1) p).1 p

/-! ## Searches -/

/-- A search that returns `ptr`, with the heap `h'`. -/
inductive Searches (expand : ℕ → Bool) (nunits : ℕ) : Heap → ℕ → ℕ → ℕ → Heap → Prop where
  | whole {h : Heap} {q p : ℕ} : h.size p = nunits →
      Searches expand nunits h q p (p + 1) (takeWhole h q p)
  | tail {h : Heap} {q p : ℕ} : nunits < h.size p →
      Searches expand nunits h q p ((takeTail h nunits p).1 + 1) (takeTail h nunits p).2
  | refused {h : Heap} {q : ℕ} : h.size h.freeMemList < nunits → (expandRegion expand h).1 = 0 →
      Searches expand nunits h q h.freeMemList 0 (expandRegion expand h).2
  | page {h : Heap} {q ptr : ℕ} {h' : Heap} : h.size h.freeMemList < nunits →
      expand h.expansions = true →
      Searches expand nunits (addPage (h.askedPage true) q h.freeMemList h.heapEnd) h.freeMemList
        ((addPage (h.askedPage true) q h.freeMemList h.heapEnd).next h.freeMemList) ptr h' →
      Searches expand nunits h q h.freeMemList ptr h'
  | next {h : Heap} {q p ptr : ℕ} {h' : Heap} : h.size p < nunits → p ≠ h.freeMemList →
      Searches expand nunits h p (h.next p) ptr h' → Searches expand nunits h q p ptr h'

theorem searches_of_search {expand : ℕ → Bool} {nunits fuel q p ptr : ℕ} {h h' : Heap}
    (hs : search expand nunits fuel h q p = some (ptr, h')) :
    Searches expand nunits h q p ptr h' := by
  induction fuel generalizing h q p with
  | zero => cases hs
  | succ fuel ih =>
    rw [search] at hs
    split_ifs at hs with hle hfit hlist hnull
    · obtain ⟨rfl, rfl⟩ := Prod.mk.inj (Option.some.inj hs)
      exact .whole hfit
    · obtain ⟨rfl, rfl⟩ := Prod.mk.inj (Option.some.inj hs)
      exact .tail (Nat.lt_of_le_of_ne hle (Ne.symm hfit))
    · obtain ⟨rfl, rfl⟩ := Prod.mk.inj (Option.some.inj hs)
      subst hlist
      exact .refused (Nat.not_le.mp hle) hnull
    · have hyes : expand h.expansions = true := by
        by_contra hno
        rw [expandRegion, if_neg hno] at hnull
        exact hnull rfl
      subst hlist
      rw [expandRegion, hyes, if_pos rfl] at hs
      exact .page (Nat.not_le.mp hle) hyes (ih hs)
    · exact .next (Nat.not_le.mp hle) hlist (ih hs)

/-- `expand_region` returns `NULL` when it gets no page. -/
theorem expand_of_null {expand : ℕ → Bool} {h : Heap} (hend : 0 < h.heapEnd)
    (hnull : (expandRegion expand h).1 = 0) : expand h.expansions = false := by
  by_contra hyes
  rw [expandRegion, (Bool.not_eq_false _).mp hyes, if_pos rfl] at hnull
  exact absurd hnull (Nat.ne_of_gt hend)

/-! ## Runs

A client holds a list of pointers.  Besides calling the allocator it may write what it likes into
the blocks it holds, but not into their headers. -/

/-- What a client may do. -/
inductive Call where
  | kmalloc (nbytes : ℕ)
  | kfree (ptr : ℕ)
  | write
  deriving DecidableEq, Repr

/-- The allocator together with the headers of the live blocks: those of the pointers returned by
`kmalloc` and not yet passed to `kfree`. -/
structure Sys where
  heap : Heap
  live : List ℕ

/-- Two memories differ inside live blocks only, behind the headers. -/
def SameOutside (h h' : Heap) (live : List ℕ) : Prop :=
  ∀ x, (∀ b ∈ live, ¬ (b < x ∧ x < b + h.size b)) → h'.mem x = h.mem x

/-- One call that returns. -/
inductive Step (expand : ℕ → Bool) : Sys → Call → Sys → Prop where
  | kmalloc {s : Sys} {nbytes fuel ptr : ℕ} {h : Heap} :
      nbytes < 2 ^ 32 → Malloc.kmalloc expand fuel nbytes s.heap = some (ptr, h) → ptr ≠ 0 →
      Step expand s (.kmalloc nbytes) ⟨h, (ptr - 1) :: s.live⟩
  | kmalloc_null {s : Sys} {nbytes fuel : ℕ} {h : Heap} :
      nbytes < 2 ^ 32 → Malloc.kmalloc expand fuel nbytes s.heap = some (0, h) →
      Step expand s (.kmalloc nbytes) ⟨h, s.live⟩
  | kfree {s : Sys} {ptr fuel : ℕ} {h : Heap} :
      ptr - 1 ∈ s.live → ptr ≠ 0 → Malloc.kfree fuel ptr s.heap = some h →
      Step expand s (.kfree ptr) ⟨h, s.live.erase (ptr - 1)⟩
  | write {s : Sys} {mem : ℕ → Header} :
      SameOutside s.heap { s.heap with mem := mem } s.live →
      Step expand s .write ⟨{ s.heap with mem := mem }, s.live⟩

/-- The state `kscm_init_heap` leaves: no pointer has been handed out. -/
def Sys.init (mem : ℕ → Header) : Sys := ⟨kscmInitHeap mem, []⟩

/-- A call, executed. -/
def exec (expand : ℕ → Bool) (fuel : ℕ) (s : Sys) : Call → Option Sys
  | .kmalloc nbytes =>
    if nbytes < 2 ^ 32 then
      (kmalloc expand fuel nbytes s.heap).map fun r =>
        ⟨r.2, if r.1 = 0 then s.live else (r.1 - 1) :: s.live⟩
    else none
  | .kfree ptr =>
    if ptr - 1 ∈ s.live ∧ ptr ≠ 0 then
      (kfree fuel ptr s.heap).map fun h => ⟨h, s.live.erase (ptr - 1)⟩
    else none
  | .write => some s

/-- Calls executed one after the other. -/
def execAll (expand : ℕ → Bool) (fuel : ℕ) : List Call → Sys → Option Sys
  | [], s => some s
  | call :: calls, s => (exec expand fuel s call).bind (execAll expand fuel calls)

variable {expand : ℕ → Bool} {fuel : ℕ} {s t : Sys}

/-- An executed call is a step. -/
theorem exec_step {call : Call} (h : exec expand fuel s call = some t) :
    Step expand s call t := by
  cases call with
  | kmalloc nbytes =>
    rw [exec] at h
    split_ifs at h with hlt
    obtain ⟨⟨ptr, heap⟩, hm, rfl⟩ := Option.map_eq_some_iff.mp h
    by_cases h0 : ptr = 0
    · subst h0
      exact .kmalloc_null hlt hm
    · simpa [h0] using Step.kmalloc hlt hm h0
  | kfree ptr =>
    rw [exec] at h
    split_ifs at h with hlive
    obtain ⟨heap, hf, rfl⟩ := Option.map_eq_some_iff.mp h
    exact .kfree hlive.1 hlive.2 hf
  | write =>
    obtain rfl := Option.some.inj h
    exact Step.write fun _ _ => rfl

/-- Executed calls are a run. -/
theorem execAll_runs {calls : List Call} (h : execAll expand fuel calls s = some t) :
    Runs (Step expand) s calls t := by
  induction calls generalizing s with
  | nil => exact Option.some.inj h ▸ .nil s
  | cons call calls ih =>
    obtain ⟨u, hu, ht⟩ := Option.bind_eq_some_iff.mp h
    exact .cons (exec_step hu) (ih ht)

end SchemeOs.Malloc
