import SchemeOs.Memory.Regions

/-!
# Memory/Refusals — what `expand_region` leaves behind

`expand_region` writes the region table before it has a frame, and does not take the page back when
there is none.  So a call that returns `NULL` has changed nothing only if it got no further than the
bound.
-/

namespace SchemeOs.Memory

variable {table table' : Table} {high region p : ℕ} {m : Mem}

/-- A call returns, and if it returns `NULL` the regions are the same and the same frames free.
`none` is a write behind the bitmap or through no page table. -/
def Undone (m : Mem) : Option (ℕ × Mem) → Prop
  | none => False
  | some (p, t) => p = 0 →
      (∀ i, (t.table i).start = (m.table i).start ∧ (t.table i).size = (m.table i).size) ∧
        ∀ k < pagingPages, isFree t.bitmap k = isFree m.bitmap k

/-- The page at `p` gets the frame `frame`, and has a page table or can get one. -/
structure Mappable (high : ℕ) (m : Mem) (p frame : ℕ) : Prop where
  page : p ≠ 0
  low : lowMem ≤ frame
  high : frame < high
  present : m.pageDir (pdtIdx p) = 0 ∨ m.pageDir (pdtIdx p) % 2 = 1

/-- The region is not accepted, or its bound is met, or the page that it grows by can be mapped to
the first free frame. -/
def Granted (high region : ℕ) (m : Mem) : Prop :=
  mmSlots < region ∨ ∀ p table, growTable region m.table = some (p, table) →
    Mappable high m p (getFreeFrame m.bitmap).1

/-- A region that is grown has another size. -/
theorem size_growTable (hg : growTable region table = some (p, table')) :
    (table' region).size = ((table region).size + kPgSize) % 2 ^ 32 := by
  simp only [growTable] at hg
  split_ifs at hg
  all_goals
    obtain ⟨-, rfl⟩ := Prod.mk.inj (Option.some.inj hg)
    simp only [Function.update_self]

theorem size_growTable_ne (hg : growTable region table = some (p, table')) :
    (table' region).size ≠ (table region).size := by
  rw [size_growTable hg, kPgSize]
  omega

/-- `put_page` maps the page if it can, and leaves the region table. -/
theorem putPage_mappable {frame : ℕ} (hm : Mappable high m p frame) :
    ∃ t, putPage high p frame m = some (p, t) := by
  have hlow := hm.low
  have hhigh := hm.high
  rw [putPage, if_neg (by omega)]
  split_ifs with hzero hswap
  · exact ⟨_, rfl⟩
  · have := hm.present
    omega
  · exact ⟨_, rfl⟩

theorem putPage_not_mappable {frame q : ℕ} {t : Mem} (hm : ¬Mappable high m p frame)
    (hput : putPage high p frame m = some (q, t)) : q = 0 ∧ t.table = m.table := by
  rw [putPage] at hput
  split_ifs at hput with hrange hzero hswap
  · obtain ⟨rfl, rfl⟩ := Prod.mk.inj (Option.some.inj hput)
    exact ⟨rfl, rfl⟩
  all_goals
    obtain ⟨rfl, rfl⟩ := Prod.mk.inj (Option.some.inj hput)
    refine ⟨?_, rfl⟩
    by_contra hp
    exact hm ⟨hp, by omega, by omega, by omega⟩

/-- A call that was refused before it wrote the table changes nothing, and one whose page can be
mapped returns it. -/
theorem undone_of_granted (h : Granted high region m) :
    Undone m (expandRegion high region m) := by
  rw [expandRegion]
  split_ifs with hslots
  · exact fun _ => ⟨fun _ => ⟨rfl, rfl⟩, fun _ _ => rfl⟩
  cases hg : growTable region m.table with
  | none => exact fun _ => ⟨fun _ => ⟨rfl, rfl⟩, fun _ _ => rfl⟩
  | some pt =>
    have hmap := h.resolve_left hslots pt.1 pt.2 hg
    obtain ⟨t, ht⟩ := putPage_mappable
      (m := { m with table := pt.2, bitmap := (getFreeFrame m.bitmap).2 })
      ⟨hmap.page, hmap.low, hmap.high, hmap.present⟩
    dsimp only
    rw [ht, Option.bind_some, if_neg hmap.page]
    exact fun h0 => absurd h0 hmap.page

/-- A call that wrote the table and cannot map the page leaves the page in the table. -/
theorem granted_of_undone (h : Undone m (expandRegion high region m)) :
    Granted high region m := by
  by_cases hslots : mmSlots < region
  · exact .inl hslots
  refine .inr fun p table hg => ?_
  by_contra hmap
  have hmap' : ¬Mappable high { m with table, bitmap := (getFreeFrame m.bitmap).2 } p
      (getFreeFrame m.bitmap).1 := fun h => hmap ⟨h.page, h.low, h.high, h.present⟩
  rw [expandRegion, if_neg hslots, hg] at h
  dsimp only at h
  cases hput : putPage high p (getFreeFrame m.bitmap).1
      { m with table, bitmap := (getFreeFrame m.bitmap).2 } with
  | none =>
    rw [hput] at h
    exact h
  | some r =>
    obtain ⟨hq, htable⟩ := putPage_not_mappable hmap' hput
    rw [hput, Option.bind_some, if_pos hq] at h
    cases hfree : freeFrame (getFreeFrame m.bitmap).1 r.2.bitmap with
    | none =>
      rw [hfree] at h
      exact h
    | some b =>
      rw [hfree] at h
      have hsize := ((h rfl).1 region).2
      change (r.2.table region).size = _ at hsize
      rw [htable] at hsize
      exact size_growTable_ne hg hsize

/-- **A call that returns `NULL`** has left regions and frames as they were exactly when it was
refused before it wrote the table. -/
theorem undone_iff (high region : ℕ) (m : Mem) :
    Undone m (expandRegion high region m) ↔ Granted high region m :=
  ⟨granted_of_undone, undone_of_granted⟩

/-- With one megabyte of memory the heap gets a page that has no frame. -/
theorem not_undone : ¬∀ (high region : ℕ) (m : Mem), Undone m (expandRegion high region m) := by
  intro hall
  have hgranted := granted_of_undone (hall 0x100000 mmHeap ⟨initTable, initBitmap, fun _ => 0⟩)
  have hg : (growTable mmHeap initTable).isSome := by decide
  obtain ⟨pt, hpt⟩ := Option.isSome_iff_exists.mp hg
  have hmap := hgranted.resolve_left (by decide) pt.1 pt.2 hpt
  exact absurd (hmap.low.trans_lt hmap.high) (by decide)

end SchemeOs.Memory
