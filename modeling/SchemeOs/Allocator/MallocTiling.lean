import SchemeOs.Allocator.MallocSafety

/-!
# Allocator/MallocTiling — when no memory is lost

As long as every block that is freed melts into the free block below it, and no block that fits
exactly is taken while `_g_free_mem_list` names it, the free blocks form a ring in address order,
and free and live blocks together fill the heap.  On such a ring both loops of the allocator end.

A block freed on its own is linked to itself.  The blocks behind it on the ring are lost, and a
search that comes to it never gets back to `_g_free_mem_list`.
-/

namespace SchemeOs.Malloc

variable {expand : ℕ → Bool} {h h' : Heap} {ring live : List ℕ} {nunits fuel q p q' p' bp ptr : ℕ}

/-! ## The property -/

/-- The free blocks `ring` are a circular list in address order, with `_g_free_mem_list` on it
unless it is `NULL`, and free and live blocks fill the pages of the heap. -/
structure Conserved (s : Sys) (ring : List ℕ) : Prop where
  list : s.heap.freeMemList = 0 ∧ ring = [] ∨ s.heap.freeMemList ∈ ring
  circular : (ring ++ ring.head?.toList).IsChain fun x y => s.heap.next x = y
  sorted : ring.Pairwise (· < ·)
  tiling : Tiling s.heap.size kHeapStart s.heap.heapEnd (ring ++ s.live)

/-! ## Tidy calls

The condition that leaves out the blocks that `kfree` hangs in wrong. -/

/-- The list is not empty, and the block melts into the free block below it. -/
def FreeTidy (h : Heap) (bp : ℕ) : Prop :=
  h.freeMemList ≠ 0 ∧ ∀ fuel p, place h bp fuel h.freeMemList = some p → p + h.size p = bp

/-- The calls that keep the ring in order. -/
def TidyCall (expand : ℕ → Bool) (s : Sys) : Call → Prop
  | .kmalloc nbytes => MallocSound expand s.heap (nunitsOf nbytes)
  | .kfree ptr => FreeTidy s.heap (ptr - 1)
  | .write => True

/-- The free blocks `ring` are a ring from `_g_free_mem_list` in address order, and free and live
blocks fill the heap. -/
structure Tidy (h : Heap) (ring live : List ℕ) : Prop where
  empty : h.freeMemList = 0 → ring = []
  head : h.freeMemList ≠ 0 → ring.head? = some h.freeMemList
  closed : h.freeMemList ≠ 0 → Lasso h.next ring h.freeMemList
  sorted : ring.Pairwise (· < ·)
  tiling : Tiling h.size kHeapStart h.heapEnd (ring ++ live)

namespace Tidy

theorem le_heapEnd (hi : Tidy h ring live) : kHeapStart ≤ h.heapEnd := by
  have := hi.tiling.total
  omega

/-- The invariant with a non-empty list, in the form the search loop carries. -/
theorem of_lasso (hhead : ring.head? = some h.freeMemList) (hl : Lasso h.next ring h.freeMemList)
    (hsorted : ring.Pairwise (· < ·)) (htile : Tiling h.size kHeapStart h.heapEnd (ring ++ live)) :
    Tidy h ring live where
  empty h0 := by
    have := htile.ge _ (List.mem_append_left live (List.mem_of_head? hhead))
    have := kHeapStart_pos
    omega
  head _ := hhead
  closed _ := hl
  sorted := hsorted
  tiling := htile

theorem conserved {s : Sys} (hi : Tidy s.heap ring s.live) : Conserved s ring where
  list := by
    by_cases h0 : s.heap.freeMemList = 0
    · exact Or.inl ⟨h0, hi.empty h0⟩
    · exact Or.inr (List.mem_of_head? (hi.head h0))
  circular := by
    by_cases h0 : s.heap.freeMemList = 0
    · rw [hi.empty h0]
      exact .nil
    · rw [hi.head h0]
      exact (hi.closed h0).chain
  sorted := hi.sorted
  tiling := hi.tiling

end Tidy

theorem tidy_init (mem : ℕ → Header) : Tidy (kscmInitHeap mem) [kHeapStart] [] := by
  have htile : Tiling (kscmInitHeap mem).size kHeapStart (kHeapStart + pageUnits) [kHeapStart] := by
    rw [size_kscmInitHeap]
    exact Tiling.grow ⟨⟨.nil, by simp, by simp, by simp⟩, by simp⟩ pageUnits_pos le_rfl
  refine .of_lasso rfl ⟨?_, List.nodup_singleton _, Or.inl rfl⟩ (List.pairwise_singleton _ _) htile
  rw [next_kscmInitHeap]
  exact List.isChain_pair.mpr (Function.update_self ..)

/-! ## `kmalloc` -/

/-- A ring with a block linked to itself has no other. -/
theorem ring_eq_single (hl : Lasso h.next ring h.freeMemList)
    (hhead : ring.head? = some h.freeMemList) (hp : p ∈ ring) (hpp : h.next p = p) :
    ring = [p] := by
  obtain rfl := hl.eq_closing_of_next_self hp hpp
  obtain ⟨l₁, rfl⟩ := hl.eq_snoc_of_next_head hhead hp hpp
  cases l₁ with
  | nil => rfl
  | cons a l₁ =>
    rw [List.cons_append, List.head?_cons, Option.some.injEq] at hhead
    have hnodup := hl.nodup
    rw [hhead] at hnodup
    simp at hnodup

theorem takeWhole_tidy (hhead : ring.head? = some h.freeMemList)
    (hl : Lasso h.next ring h.freeMemList) (hsorted : ring.Pairwise (· < ·))
    (htile : Tiling h.size kHeapStart h.heapEnd (ring ++ live)) (hq : q ∈ ring)
    (hqp : h.next q = p) (hrem : q ≠ p → h.Removable p) :
    ∃ ring', Tidy (takeWhole h q p) ring' (p :: live) := by
  unfold takeWhole
  split_ifs with heq
  · subst heq
    obtain rfl := ring_eq_single hl hhead hq hqp
    refine ⟨[], ⟨fun _ => rfl, fun h0 => absurd rfl h0, fun h0 => absurd rfl h0, .nil, ?_⟩⟩
    simpa using htile
  · have hpa := (hrem heq).1
    obtain ⟨l₁, l₂, rfl⟩ := hl.split_of_next hq hqp hpa
    refine ⟨l₁ ++ q :: l₂, .of_lasso ?_ ?_ ?_ ?_⟩
    · cases l₁ <;> simpa using hhead
    · simpa using hl.unlink hpa
    · exact hsorted.sublist (by simp)
    · have hperm : (l₁ ++ q :: p :: l₂ ++ live).Perm (l₁ ++ q :: l₂ ++ p :: live) := by
        simp only [List.append_assoc, List.cons_append]
        exact .append_left _ (.cons _ List.perm_middle.symm)
      simpa using htile.perm hperm

theorem takeTail_tidy (hhead : ring.head? = some h.freeMemList)
    (hl : Lasso h.next ring h.freeMemList) (hsorted : ring.Pairwise (· < ·))
    (htile : Tiling h.size kHeapStart h.heapEnd (ring ++ live)) (hp : p ∈ ring) (hn : 0 < nunits)
    (hlt : nunits < h.size p) :
    Tidy (takeTail h nunits p).2 ring ((takeTail h nunits p).1 :: live) := by
  obtain ⟨rest, hrest⟩ : ∃ rest, (ring ++ live).Perm (p :: rest) :=
    ⟨_, List.perm_cons_erase (List.mem_append_left live hp)⟩
  refine .of_lasso hhead (by simpa [takeTail] using hl) hsorted ?_
  have := (htile.perm hrest).carve hn hlt
  simpa [takeTail] using this.perm ((hrest.symm.cons _).trans List.perm_middle.symm)

theorem addPage_tidy (hhead : ring.head? = some h.freeMemList)
    (hl : Lasso h.next ring h.freeMemList) (hsorted : ring.Pairwise (· < ·))
    (htile : Tiling h.size kHeapStart h.heapEnd (ring ++ live)) (hq : q ∈ ring)
    (hqp : h.next q = h.freeMemList) :
    let h' := addPage (h.askedPage true) q h.freeMemList h.heapEnd
    (ring ++ [h.heapEnd]).Pairwise (· < ·) ∧
      Lasso h'.next (ring ++ [h.heapEnd]) h.freeMemList ∧
      Tiling h'.size kHeapStart h'.heapEnd (ring ++ [h.heapEnd] ++ live) := by
  have hend : kHeapStart ≤ h.heapEnd := by
    have := htile.total
    omega
  have hbelow : ∀ b ∈ ring, b < h.heapEnd := fun b hb => by
    have := htile.pos _ (List.mem_append_left live hb)
    have := htile.le _ (List.mem_append_left live hb)
    omega
  refine ⟨?_, ?_, ?_⟩
  · refine List.pairwise_append.mpr ⟨hsorted, List.pairwise_singleton _ _, fun a ha b hb => ?_⟩
    rw [List.mem_singleton.mp hb]
    exact hbelow a ha
  · have hnew : h.heapEnd ∉ ring := fun hmem => absurd (hbelow _ hmem) (Nat.lt_irrefl _)
    simpa [addPage] using hl.insertLast hhead hq hqp hnew
  · have hperm : (h.heapEnd :: (ring ++ live)).Perm (ring ++ [h.heapEnd] ++ live) := by
      simpa using List.perm_middle.symm
    simpa [addPage] using (htile.grow pageUnits_pos hend).perm hperm

/-- **The search keeps the ring in order**: the block it returns is added to the live ones. -/
theorem search_tidy (hhead : ring.head? = some h.freeMemList)
    (hl : Lasso h.next ring h.freeMemList) (hsorted : ring.Pairwise (· < ·))
    (htile : Tiling h.size kHeapStart h.heapEnd (ring ++ live)) (hq : q ∈ ring)
    (hqp : h.next q = p) (hn : 0 < nunits)
    (hrem : ∀ q' p', Scans h nunits q p q' p' → h.size p' = nunits → q' ≠ p' → h.Removable p')
    (hs : search expand nunits fuel h q p = some (ptr, h')) :
    ∃ ring', (ptr = 0 → Tidy h' ring' live) ∧ (ptr ≠ 0 → Tidy h' ring' ((ptr - 1) :: live)) := by
  have hsearch := searches_of_search hs
  clear hs
  have hp : p ∈ ring := hqp ▸ hl.next_mem hq
  induction hsearch generalizing ring with
  | @whole h q p hfit =>
    obtain ⟨ring', hi⟩ := takeWhole_tidy hhead hl hsorted htile hq hqp (hrem q p (.here q p) hfit)
    exact ⟨ring', fun h0 => absurd h0 (Nat.succ_ne_zero _), fun _ => hi⟩
  | tail hlt =>
    exact ⟨ring, fun h0 => absurd h0 (Nat.succ_ne_zero _),
      fun _ => takeTail_tidy hhead hl hsorted htile hp hn hlt⟩
  | @refused h q _ hnull =>
    have hpos : 0 < h.heapEnd := by
      have := htile.ge _ (List.mem_append_left live hp)
      have := htile.le _ (List.mem_append_left live hp)
      have := kHeapStart_pos
      omega
    have hno := expand_of_null hpos hnull
    refine ⟨ring, fun _ => .of_lasso hhead hl hsorted ?_, fun h0 => absurd rfl h0⟩
    simpa [expandRegion, hno] using htile
  | @page h q ptr h' hsmall _ _ ih =>
    -- the ring gets a page behind its last block
    obtain ⟨hsorted', hl', htile'⟩ := addPage_tidy hhead hl hsorted htile hq hqp
    have hhead' : (ring ++ [h.heapEnd]).head? = some h.freeMemList := by
      rw [List.head?_append, hhead]; rfl
    have hne : h.freeMemList ≠ h.heapEnd := fun heq => by
      have := htile.pos _ (List.mem_append_left live hp)
      have := htile.le _ (List.mem_append_left live hp)
      omega
    have hp' := List.mem_append_left [h.heapEnd] hp
    refine ih hhead' hl' hsorted' htile' hp' rfl (fun q' p' hsc hfit _ => ?_) (hl'.next_mem hp')
    obtain ⟨hq', hqp'⟩ := hsc.mem hl' hp' rfl
    exact removable_of_ring hl' (size_addPage_lt hne hsmall) hq' hqp' hfit
  | next hsmall hlast _ ih =>
    exact ih hhead hl hsorted htile hp rfl
      (fun q' p' hsc => hrem q' p' (.next hsmall hlast hsc)) (hl.next_mem hp)

/-- The ring that the search of `kmalloc` starts on. -/
theorem refill_tidy (hi : Tidy h ring live)
    (hyes : h.freeMemList = 0 → expand h.expansions = true) :
    (refill expand h).freeMemList ≠ 0 ∧ ∃ ring', Tidy (refill expand h) ring' live := by
  rw [refill]
  split_ifs with hempty
  · obtain rfl := hi.empty hempty
    have hend := hi.le_heapEnd
    have := kHeapStart_pos
    simp only [expandRegion, hyes hempty, if_true]
    refine ⟨by simp only [Heap.freeMemList_setNext, Heap.freeMemList_setSize,
      Heap.freeMemList_setList]; omega, [h.heapEnd], .of_lasso rfl
      ⟨by simp, by simp, Or.inl rfl⟩ (List.pairwise_singleton _ _) ?_⟩
    simpa using hi.tiling.grow pageUnits_pos hend
  · exact ⟨hempty, ring, hi⟩

/-- **`kmalloc` keeps the ring in order** when it is sound. -/
theorem kmalloc_tidy {nbytes : ℕ} (hi : Tidy h ring live)
    (hok : MallocSound expand h (nunitsOf nbytes))
    (hm : kmalloc expand fuel nbytes h = some (ptr, h')) :
    ∃ ring', (ptr = 0 → Tidy h' ring' live) ∧ (ptr ≠ 0 → Tidy h' ring' ((ptr - 1) :: live)) := by
  obtain ⟨hne, ring', hi'⟩ := refill_tidy hi hok.refills
  have hhead := hi'.head hne
  refine search_tidy hhead (hi'.closed hne) hi'.sorted hi'.tiling (List.mem_of_head? hhead) rfl
    (nunitsOf_pos _) (fun q p hsc hfit hqp => ?_) hm
  by_cases hempty : h.freeMemList = 0
  · -- a fresh page is alone on the ring
    have hself : (refill expand h).next (refill expand h).freeMemList =
        (refill expand h).freeMemList := by
      rw [refill, if_pos hempty]
      simp
    rw [hself] at hsc
    exact absurd (Scans.eq_of_single hself (by simpa [hself] using hsc)) hqp
  · rw [refill, if_neg hempty] at hsc hfit ⊢
    exact hok.removable hempty q p hsc hfit hqp

/-! ## `kfree` -/

/-- The freed block melts into its lower neighbour `p`. -/
theorem meltLower_tiling (htile : Tiling h.size kHeapStart h.heapEnd (ring ++ live))
    (hp : p ∈ ring) (hbp : bp ∈ live) (hadj : p + h.size p = bp) :
    Tiling (h.setSize p (h.size p + h.size bp)).size kHeapStart h.heapEnd
      (ring ++ live.erase bp) := by
  have hring := List.perm_cons_erase hp
  have hperm : (ring ++ live).Perm (p :: bp :: (ring.erase p ++ live.erase bp)) :=
    (hring.append (List.perm_cons_erase hbp)).trans (List.perm_middle.cons p)
  have := (htile.perm hperm).melt hadj
  rw [Heap.size_setSize]
  exact this.perm (hring.symm.append_right _)

/-- The upper neighbour `h.next p` melts into the free block `p`. -/
theorem meltUpper_tidy (hhead : ring.head? = some h.freeMemList)
    (hl : Lasso h.next ring h.freeMemList) (hsorted : ring.Pairwise (· < ·))
    (htile : Tiling h.size kHeapStart h.heapEnd (ring ++ live)) (hp : p ∈ ring)
    (hadj : p + h.size p = h.next p) :
    ∃ ring', Tidy ((h.setSize p (h.size p + h.size (h.next p))).setNext p (h.next (h.next p)))
      ring' live := by
  have hpos := htile.pos p (List.mem_append_left live hp)
  -- the first block is the lowest one, so it is not above `p`
  have hxc : h.next p ≠ h.freeMemList := fun heq => by
    obtain ⟨l₁, hring⟩ := List.head?_eq_some_iff.mp hhead
    rw [hring] at hsorted hp
    rcases List.mem_cons.mp hp with hp | hp
    · omega
    · have := (List.pairwise_cons.mp hsorted).1 p hp
      omega
  obtain ⟨l₁, l₂, hsplit⟩ := hl.split_of_next hp rfl hxc
  rw [hsplit] at hl htile hhead hsorted
  refine ⟨l₁ ++ p :: l₂, .of_lasso ?_ ?_ ?_ ?_⟩
  · cases l₁ <;> simpa using hhead
  · simpa using hl.unlink hxc
  · exact hsorted.sublist (by simp)
  · have hperm : (l₁ ++ p :: h.next p :: l₂ ++ live).Perm
        (p :: h.next p :: (l₁ ++ l₂ ++ live)) := by
      simp only [List.append_assoc, List.cons_append]
      exact List.perm_middle.trans (List.perm_middle.cons p)
    have := (htile.perm hperm).melt hadj
    rw [Heap.size_setNext, Heap.size_setSize]
    refine this.perm ?_
    simpa using List.perm_middle.symm

/-- **`kfree` keeps the ring in order** when the block melts into the one below it. -/
theorem kfree_tidy (hi : Tidy h ring live) (hok : FreeTidy h (ptr - 1)) (hmem : ptr - 1 ∈ live)
    (hf : kfree fuel ptr h = some h') : ∃ ring', Tidy h' ring' (live.erase (ptr - 1)) := by
  obtain ⟨p, hplace, rfl⟩ := Option.map_eq_some_iff.mp hf
  generalize ptr - 1 = bp at *
  have hhead := hi.head hok.1
  have hl := hi.closed hok.1
  have hp : p ∈ ring := place_mem hl (List.mem_of_head? hhead) hplace
  have hadj := hok.2 fuel p hplace
  have htile := meltLower_tiling hi.tiling hp hmem hadj
  rw [joinLower, if_pos hadj, joinUpper]
  split_ifs with hup
  · have := meltUpper_tidy (h := h.setSize p (h.size p + h.size bp)) hhead (by simpa using hl)
      hi.sorted htile hp hup
    simpa using this
  · refine ⟨ring, .of_lasso hhead ?_ hi.sorted (by simpa using htile)⟩
    simpa [Function.update_eq_self] using hl

/-! ## Runs -/

theorem write_tidy {mem : ℕ → Header} (hi : Tidy h ring live)
    (hw : SameOutside h { h with mem := mem } live) : Tidy { h with mem := mem } ring live := by
  have hag : ∀ b ∈ ring ++ live, mem b = h.mem b := fun b hb => by
    refine hw b fun a ha hin => ?_
    exact hi.tiling.notMem_inside (List.mem_append_right ring ha) hin.1 hin.2 hb
  exact {
    empty := hi.empty
    head := hi.head
    closed := fun h0 => (hi.closed h0).congr_next fun y hy =>
      congrArg Header.next (hag y (List.mem_append_left live hy))
    sorted := hi.sorted
    tiling := hi.tiling.congr_size fun b hb => congrArg Header.size (hag b hb) }

/-- **The step lemma**: a tidy call keeps the ring in order. -/
theorem step_tidy {s t : Sys} {call : Call} (hi : Tidy s.heap ring s.live)
    (hok : TidyCall expand s call) (hst : Step expand s call t) :
    ∃ ring', Tidy t.heap ring' t.live := by
  cases hst with
  | kmalloc _ hm hne =>
    obtain ⟨ring', _, h₂⟩ := kmalloc_tidy hi hok hm
    exact ⟨ring', h₂ hne⟩
  | kmalloc_null _ hm =>
    obtain ⟨ring', h₁, _⟩ := kmalloc_tidy hi hok hm
    exact ⟨ring', h₁ rfl⟩
  | kfree hmem _ hf => exact kfree_tidy hi hok hmem hf
  | write hw => exact ⟨ring, write_tidy hi hw⟩

theorem tidy_of_run {mem : ℕ → Header} {calls : List Call} {s : Sys}
    (hr : Runs (Guarded (TidyCall expand) (Step expand)) (Sys.init mem) calls s) :
    ∃ ring, Tidy s.heap ring s.live :=
  hr.guarded_invariant (P := fun s => ∃ ring, Tidy s.heap ring s.live)
    (fun _ _ _ ⟨_, hi⟩ hok hst => step_tidy hi hok hst) ⟨_, tidy_init mem⟩

/-- **Tidy runs lose no memory**: the free blocks are a ring in address order, and free and live
blocks fill the pages of the heap. -/
theorem conserved_of_tidy_run {mem : ℕ → Header} {calls : List Call} {s : Sys}
    (hr : Runs (Guarded (TidyCall expand) (Step expand)) (Sys.init mem) calls s) :
    ∃ ring, Conserved s ring := by
  obtain ⟨ring, hi⟩ := tidy_of_run hr
  exact ⟨ring, hi.conserved⟩

/-- The calls of `fourCalls` are tidy: the ring has one block in all of them. -/
theorem tidy_fourCalls : ∃ s, execAll (fun n => n < 3) 2 fourCalls (Sys.init fun _ => ⟨0, 0⟩) =
    some s ∧ Runs (Guarded (TidyCall fun n => n < 3) (Step fun n => n < 3))
      (Sys.init fun _ => ⟨0, 0⟩) fourCalls s :=
  runs_fourCalls (fun _ _ h0 hself => mallocSound_of_single h0 hself _)
    fun _ _ h0 hself hlt hmelt => ⟨h0, fun _ _ hp => place_of_single hself hlt hp ▸ hmelt⟩

theorem conserved_of_tidy_run_calls : ∃ s ring, execAll (fun n => n < 3) 2 fourCalls
    (Sys.init fun _ => ⟨0, 0⟩) = some s ∧ Conserved s ring := by
  obtain ⟨s, hs, hrun⟩ := tidy_fourCalls
  obtain ⟨ring, hring⟩ := conserved_of_tidy_run hrun
  exact ⟨s, ring, hs, hring⟩

/-- **The slip of `kfree`**: the block of the first call is freed on its own and linked to itself,
so the list that starts at the free block below it does not lead back there. -/
theorem not_conserved_of_hang : ¬ ∀ (expand : ℕ → Bool) (mem : ℕ → Header) (calls : List Call)
    (s : Sys), Runs (Step expand) (Sys.init mem) calls s → ∃ ring, Conserved s ring := by
  intro hall
  obtain ⟨s, hs⟩ := Option.isSome_iff_exists.mp (show (execAll (fun _ => true) 3
    [.kmalloc 8, .kmalloc 8, .kfree (kHeapStart + 511)] (Sys.init fun _ => ⟨0, 0⟩)).isSome by
      decide +kernel)
  have hbad : (execAll (fun _ => true) 3
      [.kmalloc 8, .kmalloc 8, .kfree (kHeapStart + 511)] (Sys.init fun _ => ⟨0, 0⟩)).all
      (fun s => s.heap.freeMemList = kHeapStart ∧
        s.heap.next kHeapStart = kHeapStart + 510 ∧
        s.heap.next (kHeapStart + 510) = kHeapStart + 510) := by
    decide +kernel
  rw [hs] at hbad
  simp only [Option.all_some, decide_eq_true_eq] at hbad
  obtain ⟨hlist, hfirst, hsecond⟩ := hbad
  obtain ⟨ring, hring⟩ := hall _ _ _ s (execAll_runs hs)
  have hne := kHeapStart_pos
  have hmem : kHeapStart ∈ ring := by
    rcases hring.list with ⟨h0, -⟩ | hmem
    · omega
    · exact hlist ▸ hmem
  obtain ⟨a, rest, rfl⟩ := List.exists_cons_of_ne_nil (List.ne_nil_of_mem hmem)
  have hl : Lasso s.heap.next (a :: rest) a :=
    ⟨hring.circular, hring.sorted.imp fun hlt => Nat.ne_of_lt hlt, Or.inl rfl⟩
  have hmem' : kHeapStart + 510 ∈ a :: rest := hfirst ▸ hl.next_mem hmem
  have ha := hl.eq_closing_of_next_self hmem' hsecond
  have hle : a ≤ kHeapStart := by
    rcases List.mem_cons.mp hmem with heq | hmem
    · exact heq.symm.le
    · exact ((List.pairwise_cons.mp hring.sorted).1 _ hmem).le
  omega

end SchemeOs.Malloc
