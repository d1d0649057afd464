import SchemeOs.Allocator.MallocTiling

/-!
# Allocator/MallocTermination — when the loops of the allocator end

Neither loop has a bound of its own.  `kmalloc` goes round until it meets `_g_free_mem_list`, and
then gets one page more or gives up; `kfree` goes round until it finds the gap in address order.
On a ring that is in order both end.  Behind a block that is linked to itself neither does.
-/

namespace SchemeOs.Malloc

variable {expand : ℕ → Bool} {h : Heap} {ring live : List ℕ} {nunits q p bp : ℕ}

/-- The pages run out: at any time `expand_region` will return `NULL` sooner or later. -/
def Exhausts (expand : ℕ → Bool) : Prop := ∀ k, ∃ n, k ≤ n ∧ expand n = false

/-- The loops of `kmalloc` and `kfree` end in `s`, whatever is asked for and whatever is freed.
Freeing onto an empty list is left out: it starts at `NULL`. -/
structure Returns (expand : ℕ → Bool) (s : Sys) : Prop where
  kmalloc : ∀ nbytes, ∃ fuel, (Malloc.kmalloc expand fuel nbytes s.heap).isSome
  kfree : s.heap.freeMemList ≠ 0 → ∀ ptr, ptr - 1 ∈ s.live →
    ∃ fuel, (Malloc.kfree fuel ptr s.heap).isSome

/-! ## `kmalloc`

Each round of the ring without a block asks for a page, until one has room or there are no more. -/

/-- A search that goes on ends if its continuation does. -/
theorem exists_search_of_next (hsmall : h.size p < nunits) (hne : p ≠ h.freeMemList)
    (hnext : ∃ fuel, (search expand nunits fuel h p (h.next p)).isSome) :
    ∃ fuel, (search expand nunits fuel h q p).isSome := by
  obtain ⟨fuel, hfuel⟩ := hnext
  exact ⟨fuel + 1, by rwa [search, if_neg (by omega), if_neg hne]⟩

/-- A search that comes to a large block ends there. -/
theorem exists_search_of_le (hle : nunits ≤ h.size p) :
    ∃ fuel, (search expand nunits fuel h q p).isSome := by
  refine ⟨1, ?_⟩
  rw [search, if_pos hle]
  split_ifs <;> rfl

/-- **One round**: a search on a ring ends if it ends at the block `_g_free_mem_list` names. -/
theorem exists_search_of_round {l₁ l₂ : List ℕ}
    (hl : Lasso h.next (l₁ ++ p :: l₂) h.freeMemList)
    (hround : ∀ q ∈ l₁ ++ p :: l₂, h.next q = h.freeMemList →
      ∃ fuel, (search expand nunits fuel h q h.freeMemList).isSome)
    (hqp : h.next q = p) (hq : q ∈ l₁ ++ p :: l₂) :
    ∃ fuel, (search expand nunits fuel h q p).isSome := by
  induction l₂ generalizing l₁ q p with
  | nil =>
    by_cases hlast : p = h.freeMemList
    · subst hlast
      exact hround q hq hqp
    · have hclose : h.freeMemList = h.next p := by simpa using hl.next_eq_head
      by_cases hle : nunits ≤ h.size p
      · exact exists_search_of_le hle
      · refine exists_search_of_next (by omega) hlast ?_
        rw [← hclose]
        exact hround p (by simp) hclose.symm
  | cons a l₂ ih =>
    by_cases hlast : p = h.freeMemList
    · subst hlast
      exact hround q hq hqp
    · have hnext : a = h.next p := by simpa using hl.next_eq_head
      by_cases hle : nunits ≤ h.size p
      · exact exists_search_of_le hle
      · refine exists_search_of_next (by omega) hlast ?_
        have hassoc : l₁ ++ p :: a :: l₂ = (l₁ ++ [p]) ++ a :: l₂ := by simp
        rw [← hnext]
        rw [hassoc] at hl hround
        exact ih hl hround hnext.symm (by simp)

/-- **The search of `kmalloc` ends** on a ring, by induction on the pages left. -/
theorem exists_search (hhead : ring.head? = some h.freeMemList)
    (hl : Lasso h.next ring h.freeMemList) (hbelow : ∀ b ∈ ring, b < h.heapEnd) {n : ℕ}
    (hn : expand n = false) (hle : h.expansions ≤ n) (hq : q ∈ ring) (hqp : h.next q = p) :
    ∃ fuel, (search expand nunits fuel h q p).isSome := by
  obtain ⟨k, hk⟩ : ∃ k, n = h.expansions + k := ⟨n - h.expansions, by omega⟩
  induction k generalizing h ring q p with
  | zero =>
    have hno : expand h.expansions = false := by rw [← hn, hk, Nat.add_zero]
    obtain ⟨l₁, l₂, rfl⟩ := List.append_of_mem (hqp ▸ hl.next_mem hq)
    refine exists_search_of_round hl (fun q _ _ => ?_) hqp hq
    by_cases hle : nunits ≤ h.size h.freeMemList
    · exact exists_search_of_le hle
    have hnull : (expandRegion expand h).1 = 0 := by simp [expandRegion, hno]
    exact ⟨1, by rw [search, if_neg hle, if_pos rfl, if_pos hnull]; rfl⟩
  | succ k ih =>
    obtain ⟨l₁, l₂, hring⟩ := List.append_of_mem (hqp ▸ hl.next_mem hq)
    rw [hring] at hl hq
    refine exists_search_of_round hl (fun q hq hqc => ?_) hqp hq
    rw [← hring] at hl hq
    by_cases hle : nunits ≤ h.size h.freeMemList
    · exact exists_search_of_le hle
    by_cases hnull : (expandRegion expand h).1 = 0
    · exact ⟨1, by rw [search, if_neg hle, if_pos rfl, if_pos hnull]; rfl⟩
    -- the ring gets a page, and there is one page less to get
    have hyes : expand h.expansions = true := by
      by_contra hno
      simp [expandRegion, hno] at hnull
    have hnew : h.heapEnd ∉ ring := fun hmem => absurd (hbelow _ hmem) (Nat.lt_irrefl _)
    have hhead' : (ring ++ [h.heapEnd]).head? = some h.freeMemList := by
      rw [List.head?_append, hhead]; rfl
    have hl' : Lasso (addPage (h.askedPage true) q h.freeMemList h.heapEnd).next
        (ring ++ [h.heapEnd]) h.freeMemList := by
      simpa [addPage] using hl.insertLast hhead hq hqc hnew
    have hbelow' : ∀ b ∈ ring ++ [h.heapEnd], b < h.heapEnd + pageUnits := fun b hb => by
      have := pageUnits_pos
      rcases List.mem_append.mp hb with hb | hb
      · exact (hbelow b hb).trans (Nat.lt_add_of_pos_right this)
      · rw [List.mem_singleton.mp hb]
        omega
    obtain ⟨fuel, hfuel⟩ := ih (h := addPage (h.askedPage true) q h.freeMemList h.heapEnd) hhead'
      hl' hbelow' (by simp [addPage, Heap.askedPage, Heap.setNext, Heap.setSize]; omega)
      (List.mem_append_left _ (List.mem_of_head? hhead)) rfl
      (by simp [addPage, Heap.askedPage, Heap.setNext, Heap.setSize]; omega)
    refine ⟨fuel + 1, ?_⟩
    rw [search, if_neg hle, if_pos rfl, if_neg hnull]
    simpa [expandRegion, hyes] using hfuel

/-- **`kmalloc` returns** when the ring is in order, even if the list is empty and stays so. -/
theorem exists_kmalloc (hi : Tidy h ring live) (hexp : Exhausts expand) (nbytes : ℕ) :
    ∃ fuel, (kmalloc expand fuel nbytes h).isSome := by
  simp only [kmalloc]
  obtain ⟨n, hle, hn⟩ := hexp (refill expand h).expansions
  by_cases hempty : h.freeMemList = 0
  · -- a page, or `NULL` in its place, is alone on the ring
    have hend := hi.le_heapEnd
    have hpos := pageUnits_pos
    have hpos' := kHeapStart_pos
    have hself : (refill expand h).next (refill expand h).freeMemList =
        (refill expand h).freeMemList := by
      rw [refill, if_pos hempty]
      simp
    refine exists_search (show [(refill expand h).freeMemList].head? = _ from rfl)
      ⟨List.isChain_pair.mpr hself, List.nodup_singleton _, Or.inl rfl⟩ (fun b hb => ?_) hn hle
      List.mem_cons_self rfl
    rw [List.mem_singleton.mp hb, refill, if_pos hempty]
    cases hexpand : expand h.expansions <;> simp [expandRegion, hexpand] <;> omega
  · rw [refill, if_neg hempty] at hle ⊢
    refine exists_search (hi.head hempty) (hi.closed hempty) (fun b hb => ?_) hn hle
      (List.mem_of_head? (hi.head hempty)) rfl
    have := hi.tiling.pos _ (List.mem_append_left live hb)
    have := hi.tiling.le _ (List.mem_append_left live hb)
    omega

/-! ## `kfree`

The loop for the place ends on a ring that is sorted but for one link. -/

/-- **The search of `kfree` ends** on a ring in address order.  Until it does, the block is not
between the first free block and `p`. -/
theorem exists_place {l₁ l₂ : List ℕ} (hl : Lasso h.next (l₁ ++ p :: l₂) h.freeMemList)
    (hsorted : (l₁ ++ p :: l₂).Pairwise (· < ·))
    (hhead : (l₁ ++ p :: l₂).head? = some h.freeMemList) (hbp : bp ∉ l₁ ++ p :: l₂)
    (hgap : p < bp ∨ bp < h.freeMemList) : ∃ fuel, (place h bp fuel p).isSome := by
  induction l₂ generalizing l₁ p with
  | nil =>
    have hclose : h.freeMemList = h.next p := by simpa using hl.next_eq_head
    have hwrap : h.next p ≤ p := by
      rw [← hclose]
      rcases List.mem_append.mp (List.mem_of_head? hhead) with hmem | hmem
      · exact ((List.pairwise_append.mp hsorted).2.2 _ hmem p List.mem_cons_self).le
      · exact (List.mem_singleton.mp hmem).le
    refine ⟨1, ?_⟩
    rw [place]
    split_ifs with _ h₂
    · rfl
    · rfl
    · exact absurd ⟨hwrap, hclose ▸ hgap⟩ h₂
  | cons a l₂ ih =>
    have hnext : a = h.next p := by simpa using hl.next_eq_head
    have hassoc : l₁ ++ p :: a :: l₂ = (l₁ ++ [p]) ++ a :: l₂ := by simp
    by_cases hfit : p < bp ∧ bp < h.next p
    · exact ⟨1, by rw [place, if_pos hfit]; rfl⟩
    · have hup : p < a :=
        (List.pairwise_cons.mp (List.pairwise_append.mp hsorted).2.1).1 a List.mem_cons_self
      have hne : bp ≠ a := fun heq => hbp (by simp [heq])
      rw [hassoc] at hl hsorted hhead hbp
      obtain ⟨fuel, hfuel⟩ := ih hl hsorted hhead hbp (by omega)
      exact ⟨fuel + 1, by rwa [place, if_neg hfit, if_neg (by omega), ← hnext]⟩

/-- **`kfree` returns** when the ring is in order and not empty. -/
theorem exists_kfree (hi : Tidy h ring live) (h0 : h.freeMemList ≠ 0) {ptr : ℕ}
    (hmem : ptr - 1 ∈ live) : ∃ fuel, (kfree fuel ptr h).isSome := by
  simp only [kfree, Option.isSome_map]
  have hhead := hi.head h0
  obtain ⟨rest, hring⟩ := List.head?_eq_some_iff.mp hhead
  have hbp : ptr - 1 ∉ ring := fun hin =>
    List.disjoint_of_nodup_append hi.tiling.nodup hin hmem
  have hne : ptr - 1 ≠ h.freeMemList := fun heq => hbp (heq ▸ List.mem_of_head? hhead)
  have hl := hi.closed h0
  have hsorted := hi.sorted
  rw [hring] at hl hsorted hbp hhead
  exact @exists_place _ _ _ [] _ hl hsorted hhead hbp (by omega)

/-! ## Runs -/

/-- **Tidy runs never hang**: in every state they reach, both loops end. -/
theorem returns_of_tidy_run {mem : ℕ → Header} {calls : List Call} {s : Sys}
    (hexp : Exhausts expand)
    (hr : Runs (Guarded (TidyCall expand) (Step expand)) (Sys.init mem) calls s) :
    Returns expand s := by
  obtain ⟨ring, hi⟩ := tidy_of_run hr
  exact ⟨exists_kmalloc hi hexp, fun h0 _ hmem => exists_kfree hi h0 hmem⟩

theorem returns_of_tidy_run_calls : ∃ s, execAll (fun n => n < 3) 2 fourCalls
    (Sys.init fun _ => ⟨0, 0⟩) = some s ∧ Returns (fun n => n < 3) s := by
  obtain ⟨s, hs, hrun⟩ := tidy_fourCalls
  have hexp : Exhausts fun n => n < 3 := fun k => ⟨k + 3, by omega, by simp⟩
  exact ⟨s, hs, returns_of_tidy_run hexp hrun⟩

/-- A search that is at a small block linked to itself, which the list pointer does not name, stays
there. -/
theorem search_eq_none_of_self (hsmall : h.size p < nunits) (hne : p ≠ h.freeMemList)
    (hself : h.next p = p) (fuel q : ℕ) : search expand nunits fuel h q p = none := by
  induction fuel generalizing q with
  | zero => rfl
  | succ fuel ih => rw [search, if_neg (by omega), if_neg hne, hself, ih]

/-- **The slip of `kfree`**: the block of the first call is freed on its own and linked to itself,
and a request larger than it goes round there for ever. -/
theorem not_returns_of_hang : ¬ ∀ (expand : ℕ → Bool) (mem : ℕ → Header) (calls : List Call)
    (s : Sys), Exhausts expand → Runs (Step expand) (Sys.init mem) calls s →
      Returns expand s := by
  intro hall
  have hexp : Exhausts fun _ => false := fun k => ⟨k, le_rfl, rfl⟩
  obtain ⟨s, hs⟩ := Option.isSome_iff_exists.mp (show (execAll (fun _ => false) 3
    [.kmalloc 8, .kmalloc 8, .kfree (kHeapStart + 511)] (Sys.init fun _ => ⟨0, 0⟩)).isSome by
      decide +kernel)
  have hbad : (execAll (fun _ => false) 3
      [.kmalloc 8, .kmalloc 8, .kfree (kHeapStart + 511)] (Sys.init fun _ => ⟨0, 0⟩)).all
      (fun s => s.heap.freeMemList = kHeapStart ∧
        s.heap.next kHeapStart = kHeapStart + 510 ∧
        s.heap.next (kHeapStart + 510) = kHeapStart + 510 ∧
        s.heap.size (kHeapStart + 510) = 2) := by
    decide +kernel
  rw [hs] at hbad
  simp only [Option.all_some, decide_eq_true_eq] at hbad
  obtain ⟨hlist, hfirst, hsecond, hsize⟩ := hbad
  have hne := kHeapStart_pos
  obtain ⟨fuel, hfuel⟩ := (hall _ _ _ s hexp (execAll_runs hs)).kmalloc 4096
  have hunits : nunitsOf 4096 = 513 := by decide
  rw [Malloc.kmalloc, refill, if_neg (by omega), hlist, hfirst,
    search_eq_none_of_self (by omega) (by omega) hsecond] at hfuel
  exact Bool.noConfusion hfuel

end SchemeOs.Malloc
