import SchemeOs.Allocator.Layout
import SchemeOs.Allocator.Malloc
import SchemeOs.Machinery.Lasso
import SchemeOs.Machinery.Runs

/-!
# Allocator/MallocSafety — when live blocks stay disjoint

`Safe` is what a client relies on: live blocks overlap neither each other nor a block on the free
ring, and lie in the heap.  Three slips of `lib/malloc.c` break it.

* `kmalloc` unlinks a block that fits exactly without moving `_g_free_mem_list` off it, and through
  its predecessor only; so the block the list pointer names, or a block linked to itself, stays on
  the ring after it was handed out.  `kfree` melts its upper neighbour in the same way.
* `kfree` overwrites `p->next` before it reads it, so a block freed on its own is linked to itself.
* Neither function checks for an empty list: `kmalloc` uses the `NULL` of a failed `expand_region`
  as a page, and `kfree` searches from `NULL`.

`Sound` excludes the calls that run into the first and the third slip, and a run of sound calls is
safe: the free blocks then form a `Lasso`, and free and live blocks together a `Layout`.
-/

namespace SchemeOs.Malloc

variable {expand : ℕ → Bool} {h h' : Heap} {ring live : List ℕ} {nunits fuel q p q' p' bp ptr : ℕ}

/-! ## The property -/

/-- The units of the block at `b`. -/
def Heap.units (h : Heap) (b : ℕ) : Set ℕ := Set.Ico b (b + h.size b)

/-- `f` is reached from `_g_free_mem_list`. -/
def Heap.OnRing (h : Heap) (f : ℕ) : Prop :=
  h.freeMemList ≠ 0 ∧ ∃ k, h.next^[k] h.freeMemList = f

/-- Live blocks overlap no other live block and no free one, and lie inside the heap. -/
structure Safe (s : Sys) : Prop where
  live_disjoint : s.live.Pairwise fun a b => Disjoint (s.heap.units a) (s.heap.units b)
  ring_disjoint : ∀ b ∈ s.live, ∀ f, s.heap.OnRing f → Disjoint (s.heap.units b) (s.heap.units f)
  inside : ∀ b ∈ s.live, s.heap.units b ⊆ Set.Ico kHeapStart s.heap.heapEnd

/-! ## Sound calls

The condition that leaves out the links that the two functions get wrong. -/

/-- The search of `kmalloc`, started at `(q, p)`, looks at `p'` with predecessor `q'` while it is
still on the ring it started on: all blocks before `p'` are too small. -/
inductive Scans (h : Heap) (nunits : ℕ) : ℕ → ℕ → ℕ → ℕ → Prop where
  | here (q p : ℕ) : Scans h nunits q p q p
  | next {q p q' p' : ℕ} : h.size p < nunits → p ≠ h.freeMemList →
      Scans h nunits p (h.next p) q' p' → Scans h nunits q p q' p'

/-- `p` can be taken off the ring through its predecessor: the list pointer does not name it, and
it does not point at itself. -/
def Heap.Removable (h : Heap) (p : ℕ) : Prop := p ≠ h.freeMemList ∧ h.next p ≠ p

/-- An empty list can be refilled, and an exact fit can be taken off the ring. -/
structure MallocSound (expand : ℕ → Bool) (h : Heap) (nunits : ℕ) : Prop where
  refills : h.freeMemList = 0 → expand h.expansions = true
  removable : h.freeMemList ≠ 0 → ∀ q p, Scans h nunits h.freeMemList (h.next h.freeMemList) q p →
    h.size p = nunits → q ≠ p → h.Removable p

/-- The list is not empty, and an upper neighbour that is melted can be taken off the ring. -/
structure FreeSound (h : Heap) (bp : ℕ) : Prop where
  nonempty : h.freeMemList ≠ 0
  removable : ∀ fuel p, place h bp fuel h.freeMemList = some p → p + h.size p = bp →
    bp + h.size bp = h.next p → h.Removable (h.next p)

/-- The calls that do not run into a slip. -/
def Sound (expand : ℕ → Bool) (s : Sys) : Call → Prop
  | .kmalloc nbytes => MallocSound expand s.heap (nunitsOf nbytes)
  | .kfree ptr => FreeSound s.heap (ptr - 1)
  | .write => True

/-! ## The invariant

The free list comes back to its start, and its blocks and the live ones are apart. -/

/-- The free blocks `ring` are a lasso from `_g_free_mem_list`, and free and live blocks are laid
out in the heap. -/
structure Inv (h : Heap) (ring live : List ℕ) : Prop where
  empty : h.freeMemList = 0 → ring = []
  head : h.freeMemList ≠ 0 → ring.head? = some h.freeMemList
  lasso : h.freeMemList ≠ 0 → ∃ c, Lasso h.next ring c
  layout : Layout h.size kHeapStart h.heapEnd (ring ++ live)
  heapEnd : kHeapStart ≤ h.heapEnd

theorem nunitsOf_pos (nbytes : ℕ) : 0 < nunitsOf nbytes := Nat.succ_pos _

namespace Inv

/-- The invariant with a non-empty list, in the form the search loop carries. -/
theorem of_lasso {c : ℕ} (hhead : ring.head? = some h.freeMemList) (hl : Lasso h.next ring c)
    (hlay : Layout h.size kHeapStart h.heapEnd (ring ++ live)) (hend : kHeapStart ≤ h.heapEnd) :
    Inv h ring live where
  empty h0 := by
    have hmem := List.mem_of_head? hhead
    have := hlay.ge _ (List.mem_append_left live hmem)
    have := kHeapStart_pos
    omega
  head _ := hhead
  lasso _ := ⟨c, hl⟩
  layout := hlay
  heapEnd := hend

theorem mem_of_onRing (hi : Inv h ring live) {f : ℕ} (hf : h.OnRing f) : f ∈ ring := by
  obtain ⟨h0, k, rfl⟩ := hf
  obtain ⟨c, hl⟩ := hi.lasso h0
  exact hl.iterate_mem (List.mem_of_head? (hi.head h0)) k

/-- **The invariant implies safety.** -/
theorem safe {s : Sys} (hi : Inv s.heap ring s.live) : Safe s where
  live_disjoint := (hi.layout.sublist (List.sublist_append_right ring s.live)).apart.imp
    Apart.disjoint
  ring_disjoint b hb f hf := by
    have hap := (List.pairwise_append.mp hi.layout.apart).2.2 f (hi.mem_of_onRing hf) b hb
    exact hap.disjoint.symm
  inside b hb x hx := by
    have hmem : b ∈ ring ++ s.live := List.mem_append_right _ hb
    have hge := hi.layout.ge b hmem
    have hle := hi.layout.le b hmem
    simp only [Heap.units, Set.mem_Ico] at hx ⊢
    omega

end Inv

theorem inv_init (mem : ℕ → Header) : Inv (kscmInitHeap mem) [kHeapStart] [] := by
  have hend : kHeapStart ≤ (kscmInitHeap mem).heapEnd := Nat.le_add_right _ _
  have hlay : Layout (kscmInitHeap mem).size kHeapStart (kHeapStart + pageUnits) [kHeapStart] := by
    rw [size_kscmInitHeap]
    exact Layout.grow ⟨.nil, by simp, by simp, by simp⟩ pageUnits_pos le_rfl
  refine .of_lasso (c := kHeapStart) rfl ⟨?_, List.nodup_singleton _, Or.inl rfl⟩ hlay hend
  rw [next_kscmInitHeap]
  exact List.isChain_pair.mpr (Function.update_self ..)

/-! ## `kmalloc`

The search goes along the ring; a block is taken whole or split at its end, or a page is hung in. -/

/-- What the search looks at is on the ring. -/
theorem Scans.mem {c : ℕ} (hl : Lasso h.next ring c) (hs : Scans h nunits q p q' p')
    (hq : q ∈ ring) (hqp : h.next q = p) : q' ∈ ring ∧ h.next q' = p' := by
  induction hs with
  | here q p => exact ⟨hq, hqp⟩
  | next _ _ _ ih => exact ih (hqp ▸ hl.next_mem hq) rfl

/-- On a ring of one block the search never leaves it. -/
theorem Scans.eq_of_single {a : ℕ} (ha : h.next a = a)
    (hs : Scans h nunits a (h.next a) q' p') : q' = p' := by
  have hl : Lasso h.next [a] a := ⟨by simp [ha], List.nodup_singleton a, Or.inl rfl⟩
  obtain ⟨hq', rfl⟩ := hs.mem hl List.mem_cons_self rfl
  rw [List.mem_singleton.mp hq', ha]

theorem takeWhole_inv {c : ℕ} (hhead : ring.head? = some h.freeMemList) (hl : Lasso h.next ring c)
    (hlay : Layout h.size kHeapStart h.heapEnd (ring ++ live)) (hend : kHeapStart ≤ h.heapEnd)
    (hq : q ∈ ring) (hqp : h.next q = p) (hrem : q ≠ p → h.Removable p) :
    ∃ ring', Inv (takeWhole h q p) ring' (p :: live) := by
  have hp : p ∈ ring := hqp ▸ hl.next_mem hq
  unfold takeWhole
  split_ifs with heq
  · refine ⟨[], ⟨fun _ => rfl, fun h0 => absurd rfl h0, fun h0 => absurd rfl h0, ?_, hend⟩⟩
    have hsub : (p :: live).Sublist (ring ++ live) := by
      simpa using (List.singleton_sublist.mpr hp).append (List.Sublist.refl live)
    simpa using hlay.sublist hsub
  · obtain ⟨hpa, hpp⟩ := hrem heq
    have hpc : p ≠ c := hl.ne_closing hhead hpa hpp
    obtain ⟨l₁, l₂, rfl⟩ := hl.split_of_next hq hqp hpc
    refine ⟨l₁ ++ q :: l₂, .of_lasso (c := c) ?_ ?_ ?_ hend⟩
    · cases l₁ <;> simpa using hhead
    · simpa using hl.unlink hpc
    · have hperm : (l₁ ++ q :: p :: l₂ ++ live).Perm (l₁ ++ q :: l₂ ++ p :: live) := by
        simp only [List.append_assoc, List.cons_append]
        exact .append_left _ (.cons _ List.perm_middle.symm)
      simpa using hlay.perm hperm

theorem takeTail_inv {c : ℕ} (hhead : ring.head? = some h.freeMemList) (hl : Lasso h.next ring c)
    (hlay : Layout h.size kHeapStart h.heapEnd (ring ++ live)) (hend : kHeapStart ≤ h.heapEnd)
    (hp : p ∈ ring) (hn : 0 < nunits) (hlt : nunits < h.size p) :
    Inv (takeTail h nunits p).2 ring ((takeTail h nunits p).1 :: live) := by
  obtain ⟨rest, hrest⟩ : ∃ rest, (ring ++ live).Perm (p :: rest) :=
    ⟨_, List.perm_cons_erase (List.mem_append_left live hp)⟩
  refine .of_lasso (c := c) hhead (by simpa [takeTail] using hl) ?_ hend
  have := (hlay.perm hrest).carve hn hlt
  simpa [takeTail] using this.perm ((hrest.symm.cons _).trans List.perm_middle.symm)

theorem addPage_inv (hhead : ring.head? = some h.freeMemList)
    (hl : Lasso h.next ring h.freeMemList)
    (hlay : Layout h.size kHeapStart h.heapEnd (ring ++ live)) (hend : kHeapStart ≤ h.heapEnd)
    (hq : q ∈ ring) (hqp : h.next q = h.freeMemList) :
    let h' := addPage (h.askedPage true) q h.freeMemList h.heapEnd
    Lasso h'.next (ring ++ [h.heapEnd]) h.freeMemList ∧
      Layout h'.size kHeapStart h'.heapEnd (ring ++ [h.heapEnd] ++ live) := by
  have hnew : h.heapEnd ∉ ring := fun hmem => by
    have := hlay.pos _ (List.mem_append_left live hmem)
    have := hlay.le _ (List.mem_append_left live hmem)
    omega
  refine ⟨?_, ?_⟩
  · have := hl.insertLast hhead hq hqp hnew
    simpa [addPage] using this
  · have hperm : (h.heapEnd :: (ring ++ live)).Perm (ring ++ [h.heapEnd] ++ live) := by
      simpa using List.perm_middle.symm
    simpa [addPage] using (hlay.grow pageUnits_pos hend).perm hperm

/-- On a ring whose first block is too small, every exact fit can be taken off. -/
theorem removable_of_ring (hl : Lasso h.next ring h.freeMemList)
    (hsmall : h.size h.freeMemList < nunits) (hq : q ∈ ring) (hqp : h.next q = p)
    (hfit : h.size p = nunits) : h.Removable p := by
  have hpa : p ≠ h.freeMemList := fun heq => by rw [heq] at hfit; omega
  exact ⟨hpa, fun hpp => hpa (hl.eq_closing_of_next_self (hqp ▸ hl.next_mem hq) hpp)⟩

/-- The first block is too small also when a page has been added. -/
theorem size_addPage_lt (hne : h.freeMemList ≠ h.heapEnd) (hsmall : h.size h.freeMemList < nunits) :
    (addPage (h.askedPage true) q h.freeMemList h.heapEnd).size
      (addPage (h.askedPage true) q h.freeMemList h.heapEnd).freeMemList < nunits := by
  change (addPage (h.askedPage true) q h.freeMemList h.heapEnd).size h.freeMemList < nunits
  simpa only [addPage, Heap.size_setNext, Heap.size_setSize, Function.update_of_ne hne,
    Heap.size_askedPage] using hsmall

/-- **The search keeps the invariant**: the block it returns is added to the live ones. -/
theorem search_inv {c : ℕ} (hhead : ring.head? = some h.freeMemList) (hl : Lasso h.next ring c)
    (hlay : Layout h.size kHeapStart h.heapEnd (ring ++ live)) (hend : kHeapStart ≤ h.heapEnd)
    (hq : q ∈ ring) (hqp : h.next q = p) (hn : 0 < nunits)
    (hrem : ∀ q' p', Scans h nunits q p q' p' → h.size p' = nunits → q' ≠ p' → h.Removable p')
    (hs : search expand nunits fuel h q p = some (ptr, h')) :
    ∃ ring', (ptr = 0 → Inv h' ring' live) ∧ (ptr ≠ 0 → Inv h' ring' ((ptr - 1) :: live)) := by
  have hsearch := searches_of_search hs
  clear hs
  have hp : p ∈ ring := hqp ▸ hl.next_mem hq
  induction hsearch generalizing ring c with
  | @whole h q p hfit =>
    obtain ⟨ring', hi⟩ := takeWhole_inv hhead hl hlay hend hq hqp (hrem q p (.here q p) hfit)
    exact ⟨ring', fun h0 => absurd h0 (Nat.succ_ne_zero _), fun _ => hi⟩
  | tail hlt =>
    exact ⟨ring, fun h0 => absurd h0 (Nat.succ_ne_zero _),
      fun _ => takeTail_inv hhead hl hlay hend hp hn hlt⟩
  | @refused h q _ hnull =>
    have hno := expand_of_null (kHeapStart_pos.trans_le hend) hnull
    refine ⟨ring, fun _ => ?_, fun h0 => absurd rfl h0⟩
    exact .of_lasso (c := c) hhead hl (by simpa [expandRegion, hno] using hlay)
      (by simpa [expandRegion, hno] using hend)
  | @page h q ptr h' hsmall _ _ ih =>
    -- the ring is closed, and gets a page behind its last block
    obtain rfl : c = h.freeMemList := hl.closing_eq_head hhead hq hqp
    obtain ⟨hl', hlay'⟩ := addPage_inv hhead hl hlay hend hq hqp
    have hhead' : (ring ++ [h.heapEnd]).head? = some h.freeMemList := by
      rw [List.head?_append, hhead]; rfl
    have hne : h.freeMemList ≠ h.heapEnd := fun heq => by
      have := hlay.pos _ (List.mem_append_left live hp)
      have := hlay.le _ (List.mem_append_left live hp)
      omega
    have hp' := List.mem_append_left [h.heapEnd] hp
    refine ih hhead' hl' hlay' (hend.trans (Nat.le_add_right _ _)) hp' rfl
      (fun q' p' hsc hfit _ => ?_) (hl'.next_mem hp')
    obtain ⟨hq', hqp'⟩ := hsc.mem hl' hp' rfl
    exact removable_of_ring hl' (size_addPage_lt hne hsmall) hq' hqp' hfit
  | next hsmall hlast _ ih =>
    exact ih hhead hl hlay hend hp rfl (fun q' p' hsc => hrem q' p' (.next hsmall hlast hsc))
      (hl.next_mem hp)

/-- **`kmalloc` keeps the invariant** when it is sound. -/
theorem kmalloc_inv {nbytes : ℕ} (hi : Inv h ring live)
    (hok : MallocSound expand h (nunitsOf nbytes))
    (hm : kmalloc expand fuel nbytes h = some (ptr, h')) :
    ∃ ring', (ptr = 0 → Inv h' ring' live) ∧ (ptr ≠ 0 → Inv h' ring' ((ptr - 1) :: live)) := by
  rw [kmalloc, refill] at hm
  split_ifs at hm with hempty
  · -- a fresh page is alone on the ring
    have hyes := hok.refills hempty
    obtain rfl := hi.empty hempty
    simp only [expandRegion, hyes, if_true] at hm
    have hl : Lasso ((((h.askedPage true).setList h.heapEnd).setSize h.heapEnd pageUnits).setNext
        h.heapEnd h.heapEnd).next [h.heapEnd] h.heapEnd :=
      ⟨by simp, by simp, Or.inl rfl⟩
    have hself : (((h.askedPage true).setList h.heapEnd).setSize h.heapEnd pageUnits |>.setNext
        h.heapEnd h.heapEnd).next h.heapEnd = h.heapEnd := by simp
    refine search_inv rfl hl ?_ ?_ List.mem_cons_self rfl (nunitsOf_pos _) ?_ hm
    · simpa using hi.layout.grow pageUnits_pos hi.heapEnd
    · exact hi.heapEnd.trans (Nat.le_add_right _ _)
    · intro q' p' hsc _ hne
      exact absurd (hsc.eq_of_single hself) hne
  · -- the ring of `h`
    obtain ⟨c, hl⟩ := hi.lasso hempty
    have hhead := hi.head hempty
    exact search_inv hhead hl hi.layout hi.heapEnd (List.mem_of_head? hhead) rfl (nunitsOf_pos _)
      (hok.removable hempty) hm

/-! ## `kfree` -/

/-- The place found for a freed block is on the ring. -/
theorem place_mem {c : ℕ} (hl : Lasso h.next ring c) (hq : q ∈ ring)
    (hp : place h bp fuel q = some p) : p ∈ ring := by
  induction fuel generalizing q with
  | zero => simp [place] at hp
  | succ fuel ih =>
    rw [place] at hp
    split_ifs at hp
    · exact Option.some.inj hp ▸ hq
    · exact Option.some.inj hp ▸ hq
    · exact ih (hl.next_mem hq) hp

/-- A block freed on its own: `kfree` links it to itself, and drops what followed `p`. -/
theorem hang_inv {c : ℕ} (hhead : ring.head? = some h.freeMemList) (hl : Lasso h.next ring c)
    (hlay : Layout h.size kHeapStart h.heapEnd (ring ++ live)) (hend : kHeapStart ≤ h.heapEnd)
    (hp : p ∈ ring) (hbp : bp ∈ live) :
    ∃ ring', Inv ((h.setNext p bp).setNext bp bp) ring' (live.erase bp) := by
  obtain ⟨l₁, l₂, rfl⟩ := List.append_of_mem hp
  have hperm := List.perm_cons_erase hbp
  have hnew : bp ∉ l₁ ++ p :: l₂ := fun hmem =>
    List.disjoint_of_nodup_append hlay.nodup hmem hbp
  refine ⟨l₁ ++ [p, bp], .of_lasso (c := bp) ?_ ?_ ?_ hend⟩
  · cases l₁ <;> simpa using hhead
  · simpa using hl.cut hnew
  · have hsub : (l₁ ++ [p, bp] ++ live.erase bp).Sublist
        (l₁ ++ p :: l₂ ++ bp :: live.erase bp) := by
      simp
    simpa using (hlay.perm (hperm.append_left _)).sublist hsub

/-- The freed block melts into its lower neighbour `p`. -/
theorem meltLower_layout (hlay : Layout h.size kHeapStart h.heapEnd (ring ++ live))
    (hp : p ∈ ring) (hbp : bp ∈ live) (hadj : p + h.size p = bp) :
    Layout (h.setSize p (h.size p + h.size bp)).size kHeapStart h.heapEnd
      (ring ++ live.erase bp) := by
  have hring := List.perm_cons_erase hp
  have hperm : (ring ++ live).Perm (p :: bp :: (ring.erase p ++ live.erase bp)) :=
    (hring.append (List.perm_cons_erase hbp)).trans (List.perm_middle.cons p)
  have := (hlay.perm hperm).melt hadj
  rw [Heap.size_setSize]
  exact this.perm (hring.symm.append_right _)

/-- The upper neighbour `h.next p` melts into the free block `p`. -/
theorem meltUpper_inv {c : ℕ} (hhead : ring.head? = some h.freeMemList) (hl : Lasso h.next ring c)
    (hlay : Layout h.size kHeapStart h.heapEnd (ring ++ live)) (hend : kHeapStart ≤ h.heapEnd)
    (hp : p ∈ ring) (hadj : p + h.size p = h.next p) (hrem : h.Removable (h.next p)) :
    ∃ ring', Inv ((h.setSize p (h.size p + h.size (h.next p))).setNext p (h.next (h.next p)))
      ring' live := by
  have hxc : h.next p ≠ c := hl.ne_closing hhead hrem.1 hrem.2
  obtain ⟨l₁, l₂, hsplit⟩ := hl.split_of_next hp rfl hxc
  rw [hsplit] at hl hlay hhead
  refine ⟨l₁ ++ p :: l₂, .of_lasso (c := c) ?_ ?_ ?_ hend⟩
  · cases l₁ <;> simpa using hhead
  · simpa using hl.unlink hxc
  · have hperm : (l₁ ++ p :: h.next p :: l₂ ++ live).Perm
        (p :: h.next p :: (l₁ ++ l₂ ++ live)) := by
      simp only [List.append_assoc, List.cons_append]
      exact List.perm_middle.trans (List.perm_middle.cons p)
    have := (hlay.perm hperm).melt hadj
    rw [Heap.size_setNext, Heap.size_setSize]
    refine this.perm ?_
    simpa using List.perm_middle.symm

/-- **`kfree` keeps the invariant** when it is sound. -/
theorem kfree_inv (hi : Inv h ring live) (hok : FreeSound h (ptr - 1)) (hmem : ptr - 1 ∈ live)
    (hf : kfree fuel ptr h = some h') : ∃ ring', Inv h' ring' (live.erase (ptr - 1)) := by
  obtain ⟨p, hplace, rfl⟩ := Option.map_eq_some_iff.mp hf
  generalize hbp : ptr - 1 = bp at *
  have hhead := hi.head hok.nonempty
  obtain ⟨c, hl⟩ := hi.lasso hok.nonempty
  have hp : p ∈ ring := place_mem hl (List.mem_of_head? hhead) hplace
  have hbpos : 0 < h.size bp := hi.layout.pos bp (List.mem_append_right ring hmem)
  by_cases hadj : p + h.size p = bp
  · -- melted into the block below
    have hlay := meltLower_layout hi.layout hp hmem hadj
    rw [joinLower, if_pos hadj, joinUpper]
    have hsize : (h.setSize p (h.size p + h.size bp)).size p = h.size p + h.size bp := by simp
    split_ifs with hup
    · have hrem : (h.setSize p (h.size p + h.size bp)).Removable (h.next p) := by
        have := hok.removable fuel p hplace hadj (by
          rw [hsize] at hup; simp only [Heap.next_setSize] at hup; omega)
        simpa [Heap.Removable] using this
      have := meltUpper_inv (h := h.setSize p (h.size p + h.size bp)) (c := c) hhead
        (by simpa using hl) hlay hi.heapEnd hp hup (by simpa using hrem)
      simpa using this
    · refine ⟨ring, .of_lasso (c := c) hhead ?_ (by simpa using hlay) hi.heapEnd⟩
      simpa [Function.update_eq_self] using hl
  · -- hung on its own
    rw [joinLower, if_neg hadj, joinUpper]
    have hno : ¬ bp + (h.setNext p bp).size bp = (h.setNext p bp).next p := by
      simp only [Heap.size_setNext, Heap.next_setNext, Function.update_self]
      omega
    rw [if_neg hno, Heap.next_setNext, Function.update_self]
    exact hang_inv hhead hl hi.layout hi.heapEnd hp hmem

/-! ## Writes of the client -/

/-- What a client writes into its blocks leaves all headers as they are. -/
theorem write_inv {mem : ℕ → Header} (hi : Inv h ring live)
    (hw : SameOutside h { h with mem := mem } live) : Inv { h with mem := mem } ring live := by
  have hag : ∀ b ∈ ring ++ live, mem b = h.mem b := fun b hb => by
    refine hw b fun a ha hin => ?_
    exact hi.layout.notMem_inside (List.mem_append_right ring ha) hin.1 hin.2 hb
  exact {
    empty := hi.empty
    head := hi.head
    lasso := fun h0 => (hi.lasso h0).imp fun c hl => hl.congr_next fun y hy =>
      congrArg Header.next (hag y (List.mem_append_left live hy))
    layout := hi.layout.congr_size fun b hb => congrArg Header.size (hag b hb)
    heapEnd := hi.heapEnd }

/-! ## Runs -/

/-- **The step lemma**: a sound call keeps the invariant. -/
theorem step_inv {s t : Sys} {call : Call} (hi : Inv s.heap ring s.live)
    (hok : Sound expand s call) (hst : Step expand s call t) :
    ∃ ring', Inv t.heap ring' t.live := by
  cases hst with
  | kmalloc _ hm hne =>
    obtain ⟨ring', _, h₂⟩ := kmalloc_inv hi hok hm
    exact ⟨ring', h₂ hne⟩
  | kmalloc_null _ hm =>
    obtain ⟨ring', h₁, _⟩ := kmalloc_inv hi hok hm
    exact ⟨ring', h₁ rfl⟩
  | kfree hmem _ hf => exact kfree_inv hi hok hmem hf
  | write hw => exact ⟨ring, write_inv hi hw⟩

/-- **Sound runs are safe**: as long as no call runs into a slip, live blocks overlap neither each
other nor a block on the free ring, and stay inside the heap. -/
theorem safe_of_sound_run {mem : ℕ → Header} {calls : List Call} {s : Sys}
    (hr : Runs (Guarded (Sound expand) (Step expand)) (Sys.init mem) calls s) : Safe s := by
  have hinv : ∃ ring, Inv s.heap ring s.live :=
    hr.guarded_invariant (P := fun s => ∃ ring, Inv s.heap ring s.live)
      (fun _ _ _ ⟨_, hi⟩ hok hst => step_inv hi hok hst) ⟨_, inv_init mem⟩
  obtain ⟨ring, hi⟩ := hinv
  exact hi.safe

/-- On a ring of one block every request is sound. -/
theorem mallocSound_of_single (h0 : h.freeMemList ≠ 0)
    (hself : h.next h.freeMemList = h.freeMemList) (n : ℕ) : MallocSound expand h n where
  refills hnull := absurd hnull h0
  removable _ _ _ hsc _ hne := absurd (Scans.eq_of_single hself hsc) hne

/-- The first call is always sound: the initial ring has one block. -/
theorem sound_init (mem : ℕ → Header) (nbytes : ℕ) :
    Sound expand (Sys.init mem) (.kmalloc nbytes) :=
  mallocSound_of_single kHeapStart_pos.ne'
    ((congrFun (next_kscmInitHeap mem) _).trans (Function.update_self _ _ _)) _

/-- On a ring of one block `kfree` finds that block. -/
theorem place_of_single (hself : h.next p = p) (hlt : p < bp) (hp : place h bp fuel p = some q) :
    q = p := by
  cases fuel with
  | zero => cases hp
  | succ fuel =>
    rw [place, hself, if_neg (by omega), if_pos ⟨le_rfl, .inl hlt⟩] at hp
    exact (Option.some.inj hp).symm

/-- Two requests, of which the second is released, and one for all that is free then. -/
def fourCalls : List Call := [.kmalloc 8, .kmalloc 16, .kfree (kHeapStart + 508), .kmalloc 4072]

/-- The calls meet a condition that is met on a ring of one block: by every request, and by the
release of a block that is next to it. -/
theorem runs_fourCalls {G : Sys → Call → Prop}
    (hmalloc : ∀ s n, s.heap.freeMemList ≠ 0 →
      s.heap.next s.heap.freeMemList = s.heap.freeMemList → G s (.kmalloc n))
    (hfree : ∀ s ptr, s.heap.freeMemList ≠ 0 →
      s.heap.next s.heap.freeMemList = s.heap.freeMemList → s.heap.freeMemList < ptr - 1 →
      s.heap.freeMemList + s.heap.size s.heap.freeMemList = ptr - 1 → G s (.kfree ptr)) :
    ∃ s, execAll (fun n => n < 3) 2 fourCalls (Sys.init fun _ => ⟨0, 0⟩) = some s ∧
      Runs (Guarded G (Step fun n => n < 3)) (Sys.init fun _ => ⟨0, 0⟩) fourCalls s := by
  obtain ⟨s, hs⟩ := Option.isSome_iff_exists.mp (show (execAll (fun n => n < 3) 2 fourCalls
    (Sys.init fun _ => ⟨0, 0⟩)).isSome by decide +kernel)
  refine ⟨s, hs, ?_⟩
  simp only [fourCalls, execAll, Option.bind_eq_some_iff, Option.some.injEq] at hs
  obtain ⟨s₁, hs₁, s₂, hs₂, s₃, hs₃, s₄, hs₄, rfl⟩ := hs
  have hfirst : (execAll (fun n => n < 3) 2 [.kmalloc 8] (Sys.init fun _ => ⟨0, 0⟩)).all fun s =>
      s.heap.freeMemList = kHeapStart ∧ s.heap.next kHeapStart = kHeapStart := by decide +kernel
  have hsecond : (execAll (fun n => n < 3) 2 [.kmalloc 8, .kmalloc 16]
      (Sys.init fun _ => ⟨0, 0⟩)).all fun s => s.heap.freeMemList = kHeapStart ∧
        s.heap.next kHeapStart = kHeapStart ∧ s.heap.size kHeapStart = 507 := by decide +kernel
  have hthird : (execAll (fun n => n < 3) 2 [.kmalloc 8, .kmalloc 16, .kfree (kHeapStart + 508)]
      (Sys.init fun _ => ⟨0, 0⟩)).all fun s =>
        s.heap.freeMemList = kHeapStart ∧ s.heap.next kHeapStart = kHeapStart := by decide +kernel
  simp only [execAll, hs₁, hs₂, hs₃, Option.bind_some, Option.all_some, decide_eq_true_eq]
    at hfirst hsecond hthird
  have hpos := kHeapStart_pos
  obtain ⟨hlist₁, hself₁⟩ := hfirst
  obtain ⟨hlist₂, hself₂, hsize₂⟩ := hsecond
  obtain ⟨hlist₃, hself₃⟩ := hthird
  refine .cons ⟨hmalloc _ _ hpos.ne' ?_, exec_step hs₁⟩ (.cons ⟨hmalloc _ _ ?_ ?_, exec_step hs₂⟩
    (.cons ⟨hfree _ _ ?_ ?_ ?_ ?_, exec_step hs₃⟩ (.single ⟨hmalloc _ _ ?_ ?_, exec_step hs₄⟩)))
  · exact (congrFun (next_kscmInitHeap _) _).trans (Function.update_self _ _ _)
  · omega
  · rw [hlist₁, hself₁]
  · omega
  · rw [hlist₂, hself₂]
  · omega
  · rw [← hlist₂] at hsize₂
    omega
  · omega
  · rw [hlist₃, hself₃]

theorem safe_of_sound_run_calls : ∃ s, execAll (fun n => n < 3) 2 fourCalls
    (Sys.init fun _ => ⟨0, 0⟩) = some s ∧ Safe s := by
  obtain ⟨s, hs, hrun⟩ := runs_fourCalls (G := Sound fun n => n < 3)
    (fun s n h0 hself => mallocSound_of_single h0 hself _)
    fun s ptr h0 hself hlt hmelt => ⟨h0, fun fuel p hp _ hnext => by
      obtain rfl := place_of_single hself hlt hp
      omega⟩
  exact ⟨s, hs, safe_of_sound_run hrun⟩

/-- **The slip of `kmalloc`**: the fourth call takes the block `_g_free_mem_list` names, which stays
on the ring. -/
theorem not_safe_of_exact_fit : ¬ ∀ (expand : ℕ → Bool) (mem : ℕ → Header) (calls : List Call)
    (s : Sys), Runs (Step expand) (Sys.init mem) calls s → Safe s := by
  intro hall
  obtain ⟨s, hs⟩ := Option.isSome_iff_exists.mp (show (execAll (fun _ => true) 3
    [.kmalloc 4064, .kmalloc 24, .kmalloc 4040, .kmalloc 16] (Sys.init fun _ => ⟨0, 0⟩)).isSome by
      decide +kernel)
  have hbad : (execAll (fun _ => true) 3
      [.kmalloc 4064, .kmalloc 24, .kmalloc 4040, .kmalloc 16] (Sys.init fun _ => ⟨0, 0⟩)).all
      (fun s => s.heap.freeMemList ∈ s.live ∧ s.heap.freeMemList ≠ 0
        ∧ 0 < s.heap.size s.heap.freeMemList) := by
    decide +kernel
  rw [hs] at hbad
  simp only [Option.all_some, decide_eq_true_eq] at hbad
  obtain ⟨hlive, hne, hpos⟩ := hbad
  have hdis := (hall _ _ _ s (execAll_runs hs)).ring_disjoint _ hlive _ ⟨hne, 0, rfl⟩
  have hmem : s.heap.freeMemList ∈ s.heap.units s.heap.freeMemList := by
    simp only [Heap.units, Set.mem_Ico]
    omega
  exact Set.disjoint_left.mp hdis hmem hmem

end SchemeOs.Malloc
