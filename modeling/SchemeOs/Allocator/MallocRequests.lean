import SchemeOs.Allocator.MallocTiling

/-!
# Allocator/MallocRequests — what a request gets

A block that `kmalloc` returns has as many units as were asked for, so that it holds the bytes of
the request exactly when counting them did not wrap around.

A request that gets `NULL` has asked for pages until there were none.  The pages stay on the ring,
one block each, and blocks that lie next to each other are not joined for a request.  Even one that
got no page at all has lengthened the heap region, if what it lacked was a frame.
-/

namespace SchemeOs.Malloc

variable {expand full : ℕ → Bool} {h h' : Heap} {ring live : List ℕ}
  {nunits nbytes fuel q p ptr : ℕ}

/-! ## The size of a block

A block that is taken whole has the units that it had, and one that is split those of the request.
-/

/-- The block has room for the bytes, behind its header. -/
def Holds (h : Heap) (b nbytes : ℕ) : Prop := nbytes ≤ (h.size b - 1) * headerSize

theorem size_takeWhole : (takeWhole h q p).size = h.size := by
  unfold takeWhole
  split_ifs
  · rw [Heap.size_setList, Heap.size_setNext]
  · exact Heap.size_setNext h q _

theorem size_takeTail : (takeTail h nunits p).2.size (takeTail h nunits p).1 = nunits := by
  rw [takeTail, Heap.size_setSize, Function.update_self]

/-- A block that the search returns has the units that it looked for. -/
theorem size_of_search (hm : search expand nunits fuel h q p = some (ptr, h')) (hptr : ptr ≠ 0) :
    h'.size (ptr - 1) = nunits := by
  have hsearch := searches_of_search hm
  clear hm
  induction hsearch with
  | whole hfit => rw [size_takeWhole, Nat.add_sub_cancel, hfit]
  | tail _ => rw [Nat.add_sub_cancel, size_takeTail]
  | refused _ _ => exact absurd rfl hptr
  | page _ _ _ ih => exact ih hptr
  | next _ _ _ ih => exact ih hptr

/-- The bytes of a request fit into its units exactly when their number does not wrap around. -/
theorem le_nunitsOf_iff (hn : nbytes < 2 ^ 32) :
    nbytes ≤ (nunitsOf nbytes - 1) * headerSize ↔ nbytes + headerSize - 1 < 2 ^ 32 := by
  rw [nunitsOf, headerSize, Nat.add_sub_cancel]
  omega

/-- **A block holds its request** exactly when the rounding to units did not wrap around. -/
theorem holds_iff (hn : nbytes < 2 ^ 32) (hm : kmalloc expand fuel nbytes h = some (ptr, h'))
    (hptr : ptr ≠ 0) : Holds h' (ptr - 1) nbytes ↔ nbytes + headerSize - 1 < 2 ^ 32 := by
  rw [Holds, size_of_search hm hptr]
  exact le_nunitsOf_iff hn

/-- A request that the first page holds. -/
theorem kmalloc_init (expand : ℕ → Bool) (mem : ℕ → Header) (hlt : nunitsOf nbytes < pageUnits) :
    kmalloc expand 1 nbytes (kscmInitHeap mem) =
      some ((takeTail (kscmInitHeap mem) (nunitsOf nbytes) kHeapStart).1 + 1,
        (takeTail (kscmInitHeap mem) (nunitsOf nbytes) kHeapStart).2) := by
  have hlist : (kscmInitHeap mem).freeMemList = kHeapStart := rfl
  have hnext : (kscmInitHeap mem).next kHeapStart = kHeapStart := by
    rw [next_kscmInitHeap, Function.update_self]
  have hsize : (kscmInitHeap mem).size kHeapStart = pageUnits := by
    rw [size_kscmInitHeap, Function.update_self]
  rw [kmalloc, refill, if_neg (by rw [hlist]; exact kHeapStart_pos.ne')]
  rw [hlist, hnext, search, hsize, if_pos hlt.le, if_neg hlt.ne']

theorem holds_iff_word : ∃ ptr h', kmalloc (fun _ => true) 1 8 (kscmInitHeap fun _ => ⟨0, 0⟩) =
    some (ptr, h') ∧ ptr ≠ 0 ∧ (Holds h' (ptr - 1) 8 ↔ 8 + headerSize - 1 < 2 ^ 32) := by
  have hm := kmalloc_init (fun _ => true) (fun _ => ⟨0, 0⟩)
    (show nunitsOf 8 < pageUnits by decide +kernel)
  exact ⟨_, _, hm, Nat.succ_ne_zero _, holds_iff (by decide) hm (Nat.succ_ne_zero _)⟩

/-- A request for all bytes that there are gets a block of a header. -/
theorem not_holds : ¬∀ (expand : ℕ → Bool) (fuel nbytes ptr : ℕ) (h h' : Heap), nbytes < 2 ^ 32 →
    kmalloc expand fuel nbytes h = some (ptr, h') → ptr ≠ 0 → Holds h' (ptr - 1) nbytes := by
  intro hall
  have hm := kmalloc_init (fun _ => true) (fun _ => ⟨0, 0⟩)
    (show nunitsOf (2 ^ 32 - 1) < pageUnits by decide +kernel)
  have hholds := hall _ _ _ _ _ _ (by decide) hm (Nat.succ_ne_zero _)
  rw [Holds, Nat.add_sub_cancel, size_takeTail] at hholds
  exact absurd hholds (by decide)

/-! ## A request that gets `NULL` -/

/-- Somewhere so many units in a row are free. -/
def Heap.RoomFor (h : Heap) (n : ℕ) : Prop :=
  ∃ a, ∀ x ∈ Set.Ico a (a + n), ∃ f, h.OnRing f ∧ x ∈ h.units f

/-- What a request for `n` units may leave behind that is not met: the region and the free blocks
are the old ones, and the free memory has no room for it. -/
structure Kept (full : ℕ → Bool) (h h' : Heap) (n : ℕ) : Prop where
  extent : regionEnd full h'.expansions = regionEnd full h.expansions
  ring : ∀ f, h'.OnRing f ↔ h.OnRing f
  sizes : ∀ f, h.OnRing f → h'.size f = h.size f
  noRoom : ¬h'.RoomFor n

/-- After a call that did not find the region full it has grown. -/
theorem not_kept_of_lt (hno : full h.expansions = false) (hlt : h.expansions < h'.expansions) :
    ¬Kept full h h' nunits := fun hk =>
  absurd hk.extent (lt_of_lt_of_le (lt_regionEnd_succ hno) (regionEnd_mono full hlt)).ne'

theorem expansions_le_of_searches (hs : Searches expand nunits h q p ptr h') :
    h.expansions ≤ h'.expansions := by
  induction hs with
  | whole _ =>
    unfold takeWhole
    split_ifs <;> exact le_rfl
  | tail _ => exact le_rfl
  | refused _ _ => exact Nat.le_succ _
  | page _ _ _ ih => exact (Nat.le_succ _).trans ih
  | next _ _ _ ih => exact ih

/-- **A search that gets `NULL`** was refused a page at once, or has got one. -/
theorem search_null (hend : 0 < h.heapEnd) (hs : search expand nunits fuel h q p = some (0, h')) :
    expand h.expansions = false ∧ h' = h.askedPage false ∨
      expand h.expansions = true ∧ h.expansions < h'.expansions := by
  have hsearch := searches_of_search hs
  clear hs
  generalize hnull : 0 = ptr at hsearch
  induction hsearch with
  | whole _ => exact absurd hnull.symm (Nat.succ_ne_zero _)
  | tail _ => exact absurd hnull.symm (Nat.succ_ne_zero _)
  | refused _ hexp =>
    have hno := expand_of_null hend hexp
    exact .inl ⟨hno, by rw [expandRegion, hno]⟩
  | page _ hyes hrest _ => exact .inr ⟨hyes, expansions_le_of_searches hrest⟩
  | next _ _ _ ih => exact ih hend hnull

/-- Without a list nothing is free. -/
theorem not_roomFor_of_empty (h0 : h.freeMemList = 0) (hn : 0 < nunits) : ¬h.RoomFor nunits := by
  rintro ⟨a, ha⟩
  obtain ⟨f, hf, -⟩ := ha a ⟨le_rfl, Nat.lt_add_of_pos_right hn⟩
  exact hf.1 h0

/-- **A request that gets `NULL`** leaves everything as it was, and had no room, exactly when it
found the region full at once (at the second attempt too, if the list was empty) and no neighbouring
free blocks together had the room. -/
theorem kept_iff (hfull : ∀ n, full n → expand n = false) (hend : kHeapStart ≤ h.heapEnd)
    (hm : kmalloc expand fuel nbytes h = some (0, h')) :
    Kept full h h' (nunitsOf nbytes) ↔ full h.expansions ∧
      (h.freeMemList = 0 → full (h.expansions + 1)) ∧ ¬h.RoomFor (nunitsOf nbytes) := by
  have hpos : 0 < h.heapEnd := lt_of_lt_of_le kHeapStart_pos hend
  have hgrown : ∀ n, expand n = true → full n = false := fun n hyes => by
    by_contra hf
    exact Bool.noConfusion (hyes.symm.trans (hfull n ((Bool.not_eq_false _).mp hf)))
  rw [kmalloc, refill] at hm
  split_ifs at hm with hempty
  · have hle : h.expansions + 1 ≤ h'.expansions :=
      expansions_le_of_searches (searches_of_search hm)
    cases hx : full h.expansions with
    | false =>
      -- the region has grown for the empty list already
      exact ⟨fun hk => absurd hk (not_kept_of_lt hx hle), fun hc => absurd hc.1 Bool.false_ne_true⟩
    | true =>
      -- the search starts at `NULL`
      rw [expandRegion, hfull _ hx] at hm
      have hroom := not_roomFor_of_empty hempty (nunitsOf_pos nbytes)
      rcases search_null (by exact hpos) hm with ⟨-, rfl⟩ | ⟨hyes, hlt⟩
      · cases hx' : full (h.expansions + 1) with
        | false =>
          refine ⟨fun hk => ?_, fun hc => absurd (hc.2.1 hempty) Bool.false_ne_true⟩
          exact absurd (hk.extent.trans (regionEnd_succ_of_full hx).symm)
            (lt_regionEnd_succ hx').ne'
        | true =>
          refine ⟨fun _ => ⟨rfl, fun _ => rfl, hroom⟩,
            fun _ => ⟨?_, fun f => ?_, fun f hf => ?_, ?_⟩⟩
          · exact (regionEnd_succ_of_full hx').trans (regionEnd_succ_of_full hx)
          · exact ⟨fun hf => absurd rfl hf.1, fun hf => absurd hempty hf.1⟩
          · exact absurd hempty hf.1
          · exact not_roomFor_of_empty rfl (nunitsOf_pos nbytes)
      · have hx' : full (h.expansions + 1) = false := hgrown _ hyes
        refine ⟨fun hk => ?_, fun hc => absurd (hc.2.1 hempty) (by simp [hx'])⟩
        have hgrows := lt_of_lt_of_le (lt_regionEnd_succ hx') (regionEnd_mono full hlt)
        exact absurd (hk.extent.trans (regionEnd_succ_of_full hx).symm) hgrows.ne'
  · rcases search_null hpos hm with ⟨-, rfl⟩ | ⟨hyes, hlt⟩
    · cases hx : full h.expansions with
      | false =>
        exact ⟨fun hk => absurd hk (not_kept_of_lt hx (Nat.lt_succ_self _)),
          fun hc => absurd hc.1 Bool.false_ne_true⟩
      | true =>
        exact ⟨fun hk => ⟨rfl, fun h0 => absurd h0 hempty, hk.noRoom⟩,
          fun hc => ⟨regionEnd_succ_of_full hx, fun _ => Iff.rfl, fun _ _ => rfl, hc.2.2⟩⟩
    · have hx := hgrown _ hyes
      exact ⟨fun hk => absurd hk (not_kept_of_lt hx hlt), fun hc => absurd hc.1 (by simp [hx])⟩

/-- The heap that `kscm_init_heap` leaves has a page free, and no more. -/
theorem not_roomFor_init {mem : ℕ → Header} (hlt : pageUnits < nunits) :
    ¬(kscmInitHeap mem).RoomFor nunits := by
  have honly : ∀ f, (kscmInitHeap mem).OnRing f → f = kHeapStart := by
    rintro f ⟨-, k, rfl⟩
    refine Function.iterate_fixed ?_ k
    change (kscmInitHeap mem).next kHeapStart = kHeapStart
    rw [next_kscmInitHeap, Function.update_self]
  rintro ⟨a, ha⟩
  have hunits : ∀ x ∈ Set.Ico a (a + nunits), kHeapStart ≤ x ∧ x < kHeapStart + pageUnits := by
    intro x hx
    obtain ⟨f, hf, hxf⟩ := ha x hx
    rw [honly f hf, Heap.units, size_kscmInitHeap, Function.update_self] at hxf
    exact hxf
  have hfirst := hunits a ⟨le_rfl, by omega⟩
  have hlast := hunits (a + pageUnits) ⟨by omega, by omega⟩
  omega

/-- The request for a page and a header, in a region that can grow no more. -/
theorem kept_iff_page : ∃ h', kmalloc (fun _ => false) 1 4096 (kscmInitHeap fun _ => ⟨0, 0⟩) =
    some (0, h') ∧ Kept (fun _ => true) (kscmInitHeap fun _ => ⟨0, 0⟩) h' (nunitsOf 4096) := by
  obtain ⟨⟨ptr, h'⟩, hs⟩ := Option.isSome_iff_exists.mp (show (kmalloc (fun _ => false) 1 4096
    (kscmInitHeap fun _ => ⟨0, 0⟩)).isSome by decide +kernel)
  have hnull : (kmalloc (fun _ => false) 1 4096 (kscmInitHeap fun _ => ⟨0, 0⟩)).all
      (fun r => r.1 = 0) := by decide +kernel
  rw [hs] at hnull
  obtain rfl : ptr = 0 := of_decide_eq_true hnull
  refine ⟨h', hs, (kept_iff (fun _ _ => rfl) (Nat.le_add_right _ _) hs).mpr ⟨rfl, fun _ => rfl, ?_⟩⟩
  exact not_roomFor_init (by decide +kernel)

/-- A request for a page and a header takes the last page of the region, in vain. -/
theorem not_kept : ¬∀ (expand full : ℕ → Bool) (fuel nbytes : ℕ) (h h' : Heap),
    (∀ n, full n → expand n = false) → kHeapStart ≤ h.heapEnd →
      kmalloc expand fuel nbytes h = some (0, h') → Kept full h h' (nunitsOf nbytes) := by
  intro hall
  obtain ⟨⟨ptr, h'⟩, hs⟩ := Option.isSome_iff_exists.mp (show (kmalloc (fun n => n < 1) 3 4096
    (kscmInitHeap fun _ => ⟨0, 0⟩)).isSome by decide +kernel)
  have hbad : (kmalloc (fun n => n < 1) 3 4096 (kscmInitHeap fun _ => ⟨0, 0⟩)).all
      (fun r => r.1 = 0 ∧ 0 < r.2.expansions) := by decide +kernel
  rw [hs] at hbad
  obtain ⟨rfl, hlt⟩ : ptr = 0 ∧ 0 < h'.expansions := of_decide_eq_true hbad
  have hfull : ∀ n, !decide (n < 1) → decide (n < 1) = false := fun n hn => by simpa using hn
  exact not_kept_of_lt rfl hlt (hall _ (fun n => !decide (n < 1)) _ _ _ _ hfull
    (Nat.le_add_right _ _) hs)

end SchemeOs.Malloc
