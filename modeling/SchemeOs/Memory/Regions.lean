import Mathlib.Data.Set.Basic
import Mathlib.Order.Interval.Set.Basic
import Mathlib.Tactic.IntervalCases
import SchemeOs.Memory.Frames

/-!
# Memory/Regions — the growing regions of `mm/memory.c`

Heap and slots grow upwards and the stack downwards, a page at a time.  `expand_region` checks the
bound, writes the region table, and only then gets a frame for the page; when there is none the
table keeps the page.  Frames that `put_page` turns down are given back, so the frame search never
comes to an end.

Of the paging structures the model keeps what decides a branch: the entries of the page directory.
What the page tables hold is left out.
-/

namespace SchemeOs.Memory

/-- `K_PG_SIZE`. -/
def kPgSize : ℕ := 4096

/-- `K_CODE_SIZE`. -/
def kCodeSize : ℕ := 0x400000

/-- `K_HEAP_START`. -/
def kHeapStart : ℕ := lowMem

/-- `K_STACK_START`. -/
def kStackStart : ℕ := 0x40000000 - 0x400000 - kPgSize

/-- `K_SLOTS_START`. -/
def kSlotsStart : ℕ := 0x40000000

/-- `K_SLOTS_SIZE`. -/
def kSlotsSize : ℕ := 0x20000000

/-- `mm_heap`. -/
def mmHeap : ℕ := 1
/-- `mm_stack`. -/
def mmStack : ℕ := 2
/-- `mm_slots`. -/
def mmSlots : ℕ := 3

/-- `MMR_EXPAND_UP`. -/
def mmrExpandUp : ℤ := 0
/-- `MMR_EXPAND_DOWN`. -/
def mmrExpandDown : ℤ := 1

/-- `TEMP_PAGE`, the directory entry that page tables are written through. -/
def tempPage : ℕ := 255

/-- `Kscm_mm_region_t`. -/
structure Region where
  start : ℕ
  size : ℕ
  flag : ℤ
  deriving DecidableEq, Repr

/-- `kscm_kernel_mm`: text, heap, stack, slots and the sentinel. -/
abbrev Table := ℕ → Region

/-- The region table, the frame bitmap and the page directory. -/
structure Mem where
  table : Table
  bitmap : Bitmap
  pageDir : ℕ → ℕ

/-- `PDT_IDX`. -/
def pdtIdx (addr : ℕ) : ℕ := addr >>> 22

/-- `temp_map_page`. -/
def tempMapPage (addr : ℕ) (dir : ℕ → ℕ) : ℕ → ℕ :=
  Function.update dir tempPage ((addr &&& 0xffc00000) ||| 0x87)

/-- `put_page(ptr, page)`, for a machine with physical memory up to `high`. -/
def putPage (high ptr page : ℕ) (m : Mem) : Option (ℕ × Mem) :=
  if page < lowMem ∨ high ≤ page then some (0, m)
  else if m.pageDir (pdtIdx ptr) = 0 then
    let r := getFreeFrame m.bitmap
    some (ptr, { m with
      bitmap := r.2
      pageDir := tempMapPage r.1 (Function.update m.pageDir (pdtIdx ptr) (r.1 ||| 0x3)) })
  else if m.pageDir (pdtIdx ptr) % 2 = 0 then none   -- on swap: no page table to write to
  else
    let frame := m.pageDir (pdtIdx ptr) &&& 0xfffff000
    some (ptr, { m with pageDir := tempMapPage frame m.pageDir })

/-- The first half of `expand_region`: the page the region grows by, and the table with it. -/
def growTable (region : ℕ) (table : Table) : Option (ℕ × Table) :=
  let r := table region
  let size := (r.size + kPgSize) % 2 ^ 32
  if r.flag = mmrExpandUp then
    if (table (region + 1)).start < (r.start + r.size + kPgSize) % 2 ^ 32 then none
    else some ((r.start + r.size) % 2 ^ 32, Function.update table region { r with size })
  else if r.flag = mmrExpandDown then
    let t := table (region - 1)
    let start := (r.start + 2 ^ 32 - kPgSize) % 2 ^ 32
    if start < (t.start + t.size) % 2 ^ 32 then none
    else some (start, Function.update table region { r with start, size })
  else if r.flag < 0 then none
  else some (0, Function.update table region { r with size })

/-- `expand_region(region)`: the page, or 0; `none` is a frame freed behind the bitmap. -/
def expandRegion (high region : ℕ) (m : Mem) : Option (ℕ × Mem) :=
  if mmSlots < region then some (0, m)
  else match growTable region m.table with
    | none => some (0, m)
    | some (p, table) =>
      let f := getFreeFrame m.bitmap
      (putPage high p f.1 { m with table, bitmap := f.2 }).bind fun r =>
        if r.1 = 0 then (freeFrame f.1 r.2.bitmap).map fun b => (0, { r.2 with bitmap := b })
        else some (p, r.2)

/-- `HIGH_MEMORY`, from the kilobytes above the first megabyte that the boot code stores as a
`short`. -/
def highMemory (extendMemory : BitVec 16) : ℕ := (extendMemory.toNat <<< 10) + 0x100000

/-- The table that `kscm_init_paging` sets, behind which stands the sentinel. -/
def initTable : Table
  | 0 => ⟨0, kCodeSize, -1⟩
  | 1 => ⟨kHeapStart, kPgSize, mmrExpandUp⟩
  | 2 => ⟨kStackStart, kPgSize, mmrExpandDown⟩
  | 3 => ⟨kSlotsStart, kPgSize, mmrExpandUp⟩
  | _ => ⟨kSlotsStart + kSlotsSize, 0, mmrExpandUp⟩

/-- The page directory, cleared from `LOW_MEM` on, with the page table of the stack at `frame`. -/
def clearedDir (dir : ℕ → ℕ) (frame : ℕ) : ℕ → ℕ :=
  let dir := fun i => if lowMem >>> 22 ≤ i then 0 else dir i
  tempMapPage frame (Function.update dir (pdtIdx kStackStart) (frame ||| 0x7))

/-- `kscm_init_paging`: a page table and a page for the stack, and a page for the heap. -/
def kscmInitPaging (high : ℕ) (dir : ℕ → ℕ) : Option Mem :=
  let f₁ := getFreeFrame initBitmap
  let f₂ := getFreeFrame f₁.2
  let f₃ := getFreeFrame f₂.2
  (putPage high kHeapStart f₃.1 ⟨initTable, f₃.2, clearedDir dir f₁.1⟩).map Prod.snd

/-! ## The property -/

/-- The addresses of a region. -/
def Region.span (r : Region) : Set ℕ := Set.Ico r.start (r.start + r.size)

/-- The addresses of the page at `p`. -/
def pageAt (p : ℕ) : Set ℕ := Set.Ico p (p + kPgSize)

/-- Text, heap, stack, slots and sentinel stand apart, in address order. -/
structure Separate (table : Table) : Prop where
  ordered : ∀ i j, i < j → j ≤ 4 → (table i).start + (table i).size ≤ (table j).start
  disjoint : ∀ i j, i < j → j ≤ 4 → Disjoint (table i).span (table j).span

/-- The page at `p` was in no region, and is in `region` and in no other one. -/
structure FreshPage (before after : Table) (region p : ℕ) : Prop where
  aligned : kPgSize ∣ p
  fresh : ∀ i ≤ 4, Disjoint (pageAt p) (before i).span
  belongs : pageAt p ⊆ (after region).span
  exclusive : ∀ i ≤ 4, i ≠ region → Disjoint (pageAt p) (after i).span

/-- The regions that are grown. -/
def growing : List ℕ := [mmHeap, mmStack, mmSlots]

/-- A call of `expand_region`, with its result. -/
def Expands (high : ℕ) (s : Mem) (call : ℕ × ℕ) (t : Mem) : Prop :=
  call.1 ∈ growing ∧ expandRegion high call.1 s = some (call.2, t)

/-- The pages that the calls returned. -/
def pages (calls : List (ℕ × ℕ)) : List ℕ := (calls.map Prod.snd).filter (· ≠ 0)

/-! ## The table

The regions are in order, and each ends below the start of the next one. -/

variable {table table' : Table} {high region p h k l : ℕ}

/-- The table with `h` pages in the heap, `k` in the stack and `l` in the slots. -/
structure Shape (table : Table) (h k l : ℕ) : Prop where
  text : table 0 = ⟨0, 0x400000, -1⟩
  heap : table 1 = ⟨0x800000, 4096 * h, 0⟩
  stack : table 2 = ⟨0x3fc00000 - 4096 * k, 4096 * k, 1⟩
  slots : table 3 = ⟨0x40000000, 4096 * l, 0⟩
  sentinel : table 4 = ⟨0x60000000, 0, 0⟩
  gap : 0x800000 + 4096 * h + 4096 * k ≤ 0x3fc00000
  room : 4096 * l ≤ 0x20000000

theorem shape_init : Shape initTable 1 1 1 := by
  constructor <;> decide

theorem Shape.ordered (hs : Shape table h k l) {i j : ℕ} (hij : i < j) (hj : j ≤ 4) :
    (table i).start + (table i).size ≤ (table j).start := by
  have hgap := hs.gap
  have hroom := hs.room
  interval_cases j <;> interval_cases i <;>
    simp only [hs.text, hs.heap, hs.stack, hs.slots, hs.sentinel] <;> omega

theorem Shape.separate (hs : Shape table h k l) : Separate table where
  ordered i j hij hj := hs.ordered hij hj
  disjoint i j hij hj := by
    have := hs.ordered hij hj
    refine Set.disjoint_left.mpr fun x hx hx' => ?_
    simp only [Region.span, Set.mem_Ico] at hx hx'
    omega

/-- The addresses that a shape gives to its regions. -/
theorem Shape.mem_span (hs : Shape table h k l) {i x : ℕ} (hi : i ≤ 4) :
    x ∈ (table i).span ↔ i = 0 ∧ x < 0x400000 ∨
      i = 1 ∧ 0x800000 ≤ x ∧ x < 0x800000 + 4096 * h ∨
      i = 2 ∧ 0x3fc00000 - 4096 * k ≤ x ∧ x < 0x3fc00000 ∨
      i = 3 ∧ 0x40000000 ≤ x ∧ x < 0x40000000 + 4096 * l := by
  have hgap := hs.gap
  rw [Region.span, Set.mem_Ico]
  interval_cases i
  · simp [hs.text]
  · simp [hs.heap]
  · simp [hs.stack]; omega
  · simp [hs.slots]
  · simp [hs.sentinel]

/-- **What growing can do**: one of the three regions gets the page at its end. -/
theorem growTable_cases (hs : Shape table h k l) (hr : region ∈ growing)
    (hg : growTable region table = some (p, table')) :
    (region = mmHeap ∧ p = 0x800000 + 4096 * h ∧ Shape table' (h + 1) k l) ∨
    (region = mmStack ∧ p = 0x3fc00000 - 4096 * (k + 1) ∧ Shape table' h (k + 1) l) ∨
    (region = mmSlots ∧ p = 0x40000000 + 4096 * l ∧ Shape table' h k (l + 1)) := by
  have hgap := hs.gap
  have hroom := hs.room
  simp only [growing, List.mem_cons, List.not_mem_nil, or_false] at hr
  rcases hr with rfl | rfl | rfl
  · simp only [growTable, mmHeap, hs.heap, hs.stack, mmrExpandUp, kPgSize, if_true] at hg
    split_ifs at hg with hfull
    obtain ⟨rfl, rfl⟩ := Prod.mk.inj (Option.some.inj hg)
    refine Or.inl ⟨rfl, by omega, ?_⟩
    have hsize : (4096 * h + 4096) % 2 ^ 32 = 4096 * (h + 1) := by omega
    exact {
      text := hs.text
      heap := by rw [Function.update_self, hsize]
      stack := hs.stack
      slots := hs.slots
      sentinel := hs.sentinel
      gap := by omega
      room := hroom }
  · have hdown : (1 : ℤ) ≠ 0 := by decide
    simp only [growTable, mmStack, hs.heap, hs.stack, mmrExpandUp, mmrExpandDown, kPgSize,
      if_neg hdown, if_true] at hg
    split_ifs at hg with hfull
    obtain ⟨rfl, rfl⟩ := Prod.mk.inj (Option.some.inj hg)
    have hstart : (0x3fc00000 - 4096 * k + 2 ^ 32 - 4096) % 2 ^ 32 =
        0x3fc00000 - 4096 * (k + 1) := by
      omega
    have hsize : (4096 * k + 4096) % 2 ^ 32 = 4096 * (k + 1) := by omega
    refine Or.inr (Or.inl ⟨rfl, hstart, ?_⟩)
    exact {
      text := hs.text
      heap := hs.heap
      stack := by rw [Function.update_self, hstart, hsize]
      slots := hs.slots
      sentinel := hs.sentinel
      gap := by omega
      room := hroom }
  · simp only [growTable, mmSlots, hs.slots, hs.sentinel, mmrExpandUp, kPgSize, if_true] at hg
    split_ifs at hg with hfull
    obtain ⟨rfl, rfl⟩ := Prod.mk.inj (Option.some.inj hg)
    refine Or.inr (Or.inr ⟨rfl, by omega, ?_⟩)
    have hsize : (4096 * l + 4096) % 2 ^ 32 = 4096 * (l + 1) := by omega
    exact {
      text := hs.text
      heap := hs.heap
      stack := hs.stack
      slots := by rw [Function.update_self, hsize]
      sentinel := hs.sentinel
      gap := hgap
      room := by omega }

/-- The page that a region grows by was in no region, and no other region has it. -/
theorem growTable_fresh (hs : Shape table h k l) (hr : region ∈ growing)
    (hg : growTable region table = some (p, table')) : FreshPage table table' region p := by
  have hgap := hs.gap
  rcases growTable_cases hs hr hg with ⟨rfl, hp, hs'⟩ | ⟨rfl, hp, hs'⟩ | ⟨rfl, hp, hs'⟩ <;>
    have hgap' := hs'.gap
  all_goals
    refine ⟨?_, fun i hi => Set.disjoint_left.mpr fun x hx hin => ?_, fun x hx => ?_,
      fun i hi hne => Set.disjoint_left.mpr fun x hx hin => ?_⟩
    · simp only [kPgSize]
      omega
    · rw [hs.mem_span hi] at hin
      simp only [pageAt, kPgSize, Set.mem_Ico] at hx
      omega
    · rw [hs'.mem_span (by decide)]
      simp only [pageAt, kPgSize, Set.mem_Ico] at hx
      simp [mmHeap, mmStack, mmSlots]
      omega
    · rw [hs'.mem_span hi] at hin
      simp only [pageAt, kPgSize, Set.mem_Ico] at hx
      simp only [mmHeap, mmStack, mmSlots] at hne
      omega

/-- The addresses of a region are kept when one is grown. -/
theorem growTable_span (hs : Shape table h k l) (hr : region ∈ growing)
    (hg : growTable region table = some (p, table')) {i : ℕ} (hi : i ≤ 4) :
    (table i).span ⊆ (table' i).span := by
  have hgap := hs.gap
  rcases growTable_cases hs hr hg with ⟨rfl, -, hs'⟩ | ⟨rfl, -, hs'⟩ | ⟨rfl, -, hs'⟩
  all_goals
    intro x hx
    rw [hs.mem_span hi] at hx
    rw [hs'.mem_span hi]
    omega

/-- The page is not at 0, and not in the part of the memory that page tables are mapped to. -/
theorem growTable_page (hs : Shape table h k l) (hr : region ∈ growing)
    (hg : growTable region table = some (p, table')) :
    p ≠ 0 ∧ 2 ≤ pdtIdx p ∧ pdtIdx p < 1024 ∧ pdtIdx p ≠ tempPage := by
  have hgap := hs.gap
  have hroom := hs.room
  have hidx : pdtIdx p = p / 4194304 := Nat.shiftRight_eq_div_pow p 22
  rw [hidx, tempPage]
  rcases growTable_cases hs hr hg with ⟨-, hp, hs'⟩ | ⟨-, hp, hs'⟩ | ⟨-, hp, hs'⟩
  all_goals
    have := hs'.gap
    omega

/-! ## Frames for the pages

The frames that are taken are known: the first ones, those of the pages, and those of page tables.
-/

variable {b : Bitmap} {dir : ℕ → ℕ} {m : Mem}

/-- The frames taken: those with memory behind them, the first ones, and the page tables that the
directory names. -/
def Backed (high : ℕ) (b : Bitmap) (dir : ℕ → ℕ) : Prop :=
  ∀ j < pagingPages, isFree b j = false →
    frameAddr j < high ∨ j < 4 ∨ ∃ i < 1024, i ≠ tempPage ∧ dir i = frameAddr j ||| 0x3

/-- The largest `HIGH_MEMORY` that the boot code can store. -/
theorem highMemory_le (ext : BitVec 16) : highMemory ext ≤ 68156416 := by
  have := ext.isLt
  rw [highMemory, Nat.shiftLeft_eq]
  omega

theorem frameAddr_or_div (j : ℕ) : (frameAddr j ||| 0x3) / 4096 = frameAddr j / 4096 := by
  have h := Nat.shiftRight_or_distrib (a := frameAddr j) (b := 0x3) (i := 12)
  simpa [Nat.shiftRight_eq_div_pow] using h

/-- **There are always free frames**: fewer are taken than the bitmap has. -/
theorem Backed.exists_free (hb : Backed high b dir) (hhigh : high ≤ 68156416) :
    ∃ j < pagingPages, isFree b j = true := by
  by_contra hnone
  have hsub : Finset.range pagingPages ⊆ Finset.range 14593 ∪
      (Finset.range 1024).image fun i => dir i / 4096 - 2048 := by
    intro j hj
    have hj' := Finset.mem_range.mp hj
    have htaken : isFree b j = false := by
      by_contra hfree
      exact hnone ⟨j, hj', by simpa using hfree⟩
    rw [Finset.mem_union, Finset.mem_range, Finset.mem_image]
    rcases hb j hj' htaken with hlow | hlow | ⟨i, hi, -, hdir⟩
    · simp only [frameAddr, lowMem] at hlow
      omega
    · omega
    · refine Or.inr ⟨i, Finset.mem_range.mpr hi, ?_⟩
      rw [hdir, frameAddr_or_div]
      simp only [frameAddr, lowMem]
      omega
  have hcard := (Finset.card_le_card hsub).trans (Finset.card_union_le _ _)
  have himage := Finset.card_image_le (s := Finset.range 1024) (f := fun i => dir i / 4096 - 2048)
  simp only [Finset.card_range] at hcard himage
  have := pagingPages_eq
  omega

/-- `get_free_frame` finds a frame. -/
theorem Backed.getFreeFrame (hb : Backed high b dir) (hhigh : high ≤ 68156416) :
    ∃ j < pagingPages, (getFreeFrame b).1 = frameAddr j ∧ isFree b j = true ∧
      ∀ i, isFree (getFreeFrame b).2 i = (isFree b i && decide (i ≠ j)) := by
  rcases getFreeFrame_spec b with ⟨-, hnone⟩ | ⟨j, hj, haddr, hfree, -, hbits⟩
  · obtain ⟨j, hj, hfree⟩ := hb.exists_free hhigh
    rw [hnone j hj] at hfree
    exact Bool.noConfusion hfree
  · exact ⟨j, hj, haddr, hfree, hbits⟩

/-- What `expand_region` keeps: the shape of the table, directory entries that are either zero or
present, and frames that are left over. -/
structure Paged (high : ℕ) (m : Mem) : Prop where
  shape : ∃ h k l, Shape m.table h k l
  present : ∀ i, 2 ≤ i → m.pageDir i = 0 ∨ m.pageDir i % 2 = 1
  backed : Backed high m.bitmap m.pageDir

/-- The directory entry that page tables are written through is present. -/
theorem present_tempMapPage {addr i : ℕ} (hd : dir i = 0 ∨ dir i % 2 = 1) :
    tempMapPage addr dir i = 0 ∨ tempMapPage addr dir i % 2 = 1 := by
  by_cases hi : i = tempPage
  · subst hi
    rw [tempMapPage, Function.update_self, Nat.or_mod_two_eq_one]
    exact Or.inr (Or.inr rfl)
  · rwa [tempMapPage, Function.update_of_ne hi]

theorem Backed.tempMapPage (hb : Backed high b dir) (addr : ℕ) :
    Backed high b (tempMapPage addr dir) := fun j hj hfree => by
  refine (hb j hj hfree).imp_right (Or.imp_right ?_)
  rintro ⟨i, hi, hne, hdir⟩
  exact ⟨i, hi, hne, by rwa [Memory.tempMapPage, Function.update_of_ne hne]⟩

/-- A frame with memory behind it is taken. -/
theorem Backed.take {b' : Bitmap} {j : ℕ} (hb : Backed high b dir) (hlow : frameAddr j < high)
    (hbits : ∀ i, isFree b' i = (isFree b i && decide (i ≠ j))) : Backed high b' dir :=
  fun i hi hfree => by
    by_cases heq : i = j
    · exact Or.inl (heq ▸ hlow)
    · exact hb i hi (by simpa [hbits, heq] using hfree)

/-- A frame is taken for a page table, and the directory names it. -/
theorem Backed.takeTable {b' : Bitmap} {i j : ℕ} (hb : Backed high b dir) (hi : i < 1024)
    (hne : i ≠ tempPage) (hzero : dir i = 0)
    (hbits : ∀ n, isFree b' n = (isFree b n && decide (n ≠ j))) :
    Backed high b' (Function.update dir i (frameAddr j ||| 0x3)) := fun n hn hfree => by
  by_cases heq : n = j
  · exact Or.inr (Or.inr ⟨i, hi, hne, by rw [Function.update_self, heq]⟩)
  · refine (hb n hn (by simpa [hbits, heq] using hfree)).imp_right (Or.imp_right ?_)
    rintro ⟨i', hi', hne', hdir⟩
    refine ⟨i', hi', hne', ?_⟩
    -- the entry written was zero, so it is not the one that names `n`
    rwa [Function.update_of_ne]
    rintro rfl
    rw [hzero] at hdir
    have := frameAddr_or_div n
    rw [← hdir] at this
    simp only [frameAddr, lowMem] at this
    omega

/-- A frame without memory behind it is turned down. -/
theorem putPage_refused {ptr frame : ℕ} (hle : high ≤ frame) :
    putPage high ptr frame m = some (0, m) :=
  if_pos (Or.inr hle)

/-- **`put_page`**: a frame without memory behind it is turned down, any other one is mapped. -/
theorem putPage_spec (hm : Paged high m) (hhigh : high ≤ 68156416) {ptr j : ℕ}
    (hptr : 2 ≤ pdtIdx ptr ∧ pdtIdx ptr < 1024 ∧ pdtIdx ptr ≠ tempPage) :
    (high ≤ frameAddr j ∧ putPage high ptr (frameAddr j) m = some (0, m)) ∨
    ∃ t, frameAddr j < high ∧ putPage high ptr (frameAddr j) m = some (ptr, t) ∧
      t.table = m.table ∧ Paged high t := by
  obtain ⟨hge, hlt, hne⟩ := hptr
  have hlow : ¬ frameAddr j < lowMem := by simp [frameAddr]
  rw [putPage]
  split_ifs with hrefused hzero hswap
  · exact Or.inl ⟨hrefused.resolve_left hlow, rfl⟩
  · obtain ⟨n, -, haddr, -, hbits⟩ := hm.backed.getFreeFrame hhigh
    refine Or.inr ⟨_, by omega, rfl, rfl, hm.shape, fun i hi => ?_, ?_⟩
    · refine present_tempMapPage ?_
      by_cases heq : i = pdtIdx ptr
      · subst heq
        rw [Function.update_self, Nat.or_mod_two_eq_one]
        exact Or.inr (Or.inr rfl)
      · rw [Function.update_of_ne heq]
        exact hm.present i hi
    · rw [haddr]
      exact (hm.backed.takeTable hlt hne hzero hbits).tempMapPage _
  · have := hm.present _ hge
    omega
  · exact Or.inr ⟨_, by omega, rfl, rfl, hm.shape,
      fun i hi => present_tempMapPage (hm.present i hi),
      hm.backed.tempMapPage _⟩

/-- **`expand_region`**: the bound is met, or the table grows by a page and the page is returned if
it got a frame. -/
theorem expandRegion_spec (hm : Paged high m) (hhigh : high ≤ 68156416) (hr : region ∈ growing) :
    expandRegion high region m = some (0, m) ∨
    ∃ p table q t, growTable region m.table = some (p, table) ∧
      expandRegion high region m = some (q, t) ∧ (q = 0 ∨ q = p) ∧ t.table = table ∧
      Paged high t := by
  have hslots : ¬ mmSlots < region := by
    simp only [growing, List.mem_cons, List.not_mem_nil, or_false] at hr
    rcases hr with rfl | rfl | rfl <;> decide
  rw [expandRegion, if_neg hslots]
  cases hg : growTable region m.table with
  | none => exact Or.inl rfl
  | some pt =>
    obtain ⟨p, table⟩ := pt
    obtain ⟨h, k, l, hs⟩ := hm.shape
    obtain ⟨hp0, hptr⟩ := growTable_page hs hr hg
    have hshape : ∃ h k l, Shape table h k l := by
      rcases growTable_cases hs hr hg with ⟨-, -, hs'⟩ | ⟨-, -, hs'⟩ | ⟨-, -, hs'⟩ <;>
        exact ⟨_, _, _, hs'⟩
    obtain ⟨j, hj, haddr, hfree, hbits⟩ := hm.backed.getFreeFrame hhigh
    refine Or.inr ⟨p, table, ?_⟩
    by_cases hlow : frameAddr j < high
    · have hm' : Paged high { m with table, bitmap := (getFreeFrame m.bitmap).2 } :=
        ⟨hshape, hm.present, hm.backed.take hlow hbits⟩
      rcases putPage_spec hm' hhigh hptr (j := j) with ⟨hle, -⟩ | ⟨t, -, hput, htable, ht⟩
      · omega
      · exact ⟨p, t, rfl, by simp [haddr, hput, hp0], Or.inr rfl, htable, ht⟩
    · -- the frame is given back, and the bitmap is as before
      obtain ⟨b, hb, hbits'⟩ := freeFrame_spec (getFreeFrame m.bitmap).2 hj
      refine ⟨0, { m with table, bitmap := b }, rfl, ?_, Or.inl rfl, rfl, hshape, hm.present,
        fun i hi hi' => hm.backed i hi ?_⟩
      · refine Option.bind_eq_some_iff.mpr ⟨_, putPage_refused (haddr ▸ Nat.not_lt.mp hlow), ?_⟩
        exact (if_pos rfl).trans (Option.map_eq_some_iff.mpr ⟨b, haddr ▸ hb, rfl⟩)
      by_cases heq : i = j
      · rw [hbits', heq] at hi'
        simp at hi'
      · simpa [hbits', hbits, heq] using hi'

/-! ## The start

`kscm_init_paging` takes the first frames, one after the other. -/

/-- No frame is taken from the `n`-th one on. -/
def FreeFrom (n : ℕ) (b : Bitmap) : Prop := ∀ j < pagingPages, isFree b j = false → j < n

/-- The frame found is at most the `n`-th one. -/
theorem FreeFrom.frame {n : ℕ} (hb : FreeFrom n b) (hn : n < pagingPages) :
    ∃ j ≤ n, (getFreeFrame b).1 = frameAddr j ∧
      ∀ i, isFree (getFreeFrame b).2 i = (isFree b i && decide (i ≠ j)) := by
  have hfree : isFree b n = true := by
    by_contra htaken
    exact absurd (hb n hn (by simpa using htaken)) (Nat.lt_irrefl n)
  rcases getFreeFrame_spec b with ⟨-, hnone⟩ | ⟨j, -, haddr, -, hlow, hbits⟩
  · rw [hnone n hn] at hfree
    exact Bool.noConfusion hfree
  · refine ⟨j, ?_, haddr, hbits⟩
    by_contra hlt
    rw [hlow n (by omega)] at hfree
    exact Bool.noConfusion hfree

/-- The next frame is taken. -/
theorem FreeFrom.getFreeFrame {n : ℕ} (hb : FreeFrom n b) (hn : n < pagingPages) :
    FreeFrom (n + 1) (getFreeFrame b).2 := by
  intro i hi htaken
  obtain ⟨j, hj, -, hbits⟩ := hb.frame hn
  by_cases heq : i = j
  · omega
  · exact (hb i hi (by simpa [hbits, heq] using htaken)).trans (Nat.lt_succ_self n)

theorem freeFrom_initBitmap : FreeFrom 0 initBitmap := fun j _ htaken => by
  rw [isFree_initBitmap] at htaken
  exact Bool.noConfusion htaken

/-- **`kscm_init_paging`** succeeds, and leaves enough frames. -/
theorem exists_kscmInitPaging (high : ℕ) (dir : ℕ → ℕ) :
    ∃ s, kscmInitPaging high dir = some s ∧ s.table = initTable ∧ Paged high s := by
  have hpages := pagingPages_eq
  have h₃ := ((freeFrom_initBitmap.getFreeFrame (by omega)).getFreeFrame (by omega)).getFreeFrame
    (by omega)
  have h₄ := h₃.getFreeFrame (by omega)
  have hpresent : ∀ a i, 2 ≤ i →
      clearedDir dir a i = 0 ∨ clearedDir dir a i % 2 = 1 := fun a i hi => by
    refine present_tempMapPage ?_
    by_cases heq : i = pdtIdx kStackStart
    · rw [heq, Function.update_self, Nat.or_mod_two_eq_one]
      exact Or.inr (Or.inr rfl)
    · rw [Function.update_of_ne heq, if_pos (show lowMem >>> 22 ≤ i from hi)]
      exact Or.inl rfl
  have hfirst : ∀ {b : Bitmap} {n : ℕ} {dir : ℕ → ℕ}, n ≤ 4 →
      (∀ i < pagingPages, isFree b i = false → i < n) → Backed high b dir :=
    fun hn hb j hj hfree => Or.inr (Or.inl ((hb j hj hfree).trans_le hn))
  simp only [kscmInitPaging, putPage]
  split_ifs with hrefused hzero hswap
  · exact ⟨_, rfl, rfl, ⟨1, 1, 1, shape_init⟩, hpresent _, hfirst (by decide) h₃⟩
  · refine ⟨_, rfl, rfl, ⟨1, 1, 1, shape_init⟩, fun i hi => present_tempMapPage ?_,
      hfirst le_rfl h₄⟩
    by_cases heq : i = pdtIdx kHeapStart
    · rw [heq, Function.update_self, Nat.or_mod_two_eq_one]
      exact Or.inr (Or.inr rfl)
    · rw [Function.update_of_ne heq]
      exact hpresent _ i hi
  · have := hpresent (getFreeFrame initBitmap).1 (pdtIdx kHeapStart) (by decide)
    omega
  · exact ⟨_, rfl, rfl, ⟨1, 1, 1, shape_init⟩, fun i hi => present_tempMapPage (hpresent _ i hi),
      hfirst (by decide) h₃⟩

/-! ## Runs -/

/-- **The step lemma**: regions only grow, and a page returned is a fresh one. -/
theorem expands_step {s t : Mem} {call : ℕ × ℕ} (hhigh : high ≤ 68156416) (hm : Paged high s)
    (hst : Expands high s call t) :
    Paged high t ∧ (∀ i ≤ 4, (s.table i).span ⊆ (t.table i).span) ∧
      (call.2 ≠ 0 → FreshPage s.table t.table call.1 call.2) := by
  obtain ⟨region, q⟩ := call
  obtain ⟨hr, hst⟩ := hst
  rcases expandRegion_spec hm hhigh hr with hnull | ⟨p, table, q', t', hg, hexp, hq, ht, hm'⟩
  · obtain ⟨rfl, rfl⟩ := Prod.mk.inj (Option.some.inj (hnull.symm.trans hst))
    exact ⟨hm, fun i _ => subset_rfl, fun h0 => absurd rfl h0⟩
  · obtain ⟨rfl, rfl⟩ := Prod.mk.inj (Option.some.inj (hexp.symm.trans hst))
    subst ht
    obtain ⟨h, k, l, hs⟩ := hm.shape
    refine ⟨hm', fun i hi => growTable_span hs hr hg hi, fun h0 => ?_⟩
    obtain rfl := hq.resolve_left h0
    exact growTable_fresh hs hr hg

/-- **The run lemma**: the pages returned are not in the regions at the start, and differ. -/
theorem expands_run {s t : Mem} {calls : List (ℕ × ℕ)} (hhigh : high ≤ 68156416)
    (hr : Runs (Expands high) s calls t) (hm : Paged high s) :
    Paged high t ∧ (pages calls).Nodup ∧
      ∀ p ∈ pages calls, ∀ i ≤ 4, Disjoint (pageAt p) (s.table i).span := by
  induction hr with
  | nil s => exact ⟨hm, .nil, fun p hp => absurd hp List.not_mem_nil⟩
  | @cons s s' t call calls hst _ ih =>
    obtain ⟨hm', hspan, hfresh⟩ := expands_step hhigh hm hst
    obtain ⟨ht, hnodup, hlater⟩ := ih hm'
    have hout : ∀ p ∈ pages calls, ∀ i ≤ 4, Disjoint (pageAt p) (s.table i).span :=
      fun p hp i hi => (hlater p hp i hi).mono_right (hspan i hi)
    by_cases h0 : call.2 = 0
    · rw [pages, List.map_cons, List.filter_cons_of_neg (by simp [h0])]
      exact ⟨ht, hnodup, hout⟩
    · have hpage := hfresh h0
      have hregion : call.1 ≤ 4 := by
        have := hst.1
        simp only [growing, mmHeap, mmStack, mmSlots, List.mem_cons, List.not_mem_nil,
          or_false] at this
        omega
      have hnew : call.2 ∉ pages calls := fun hmem => by
        have hin : call.2 ∈ pageAt call.2 := by simp [pageAt, kPgSize]
        exact Set.disjoint_left.mp (hlater _ hmem _ hregion) hin (hpage.belongs hin)
      rw [pages, List.map_cons, List.filter_cons_of_pos (by simp [h0])]
      refine ⟨ht, List.nodup_cons.mpr ⟨hnew, hnodup⟩, fun p hp => ?_⟩
      rcases List.mem_cons.mp hp with rfl | hp
      · exact hpage.fresh
      · exact hout p hp

/-! ## Granted pages -/

/-- Mapping a page takes a frame at most. -/
theorem freeFrom_putPage {n ptr frame q : ℕ} {t : Mem} (hb : FreeFrom n m.bitmap)
    (hn : n < pagingPages) (hput : putPage high ptr frame m = some (q, t)) :
    FreeFrom (n + 1) t.bitmap := by
  have hmono : FreeFrom (n + 1) m.bitmap := fun j hj h => (hb j hj h).trans (Nat.lt_succ_self n)
  rw [putPage] at hput
  split_ifs at hput <;> obtain ⟨-, rfl⟩ := Prod.mk.inj (Option.some.inj hput)
  · exact hmono
  · exact hb.getFreeFrame hn
  · exact hmono

/-- A call takes two frames at most. -/
theorem freeFrom_expandRegion {n q : ℕ} {t : Mem} (hb : FreeFrom n m.bitmap)
    (hn : n + 1 < pagingPages) (hexp : expandRegion high region m = some (q, t)) :
    FreeFrom (n + 2) t.bitmap := by
  have hmono : FreeFrom (n + 2) m.bitmap := fun j hj h => (hb j hj h).trans (by omega)
  rw [expandRegion] at hexp
  split_ifs at hexp
  · obtain ⟨-, rfl⟩ := Prod.mk.inj (Option.some.inj hexp)
    exact hmono
  cases hg : growTable region m.table with
  | none =>
    rw [hg] at hexp
    obtain ⟨-, rfl⟩ := Prod.mk.inj (Option.some.inj hexp)
    exact hmono
  | some pt =>
    rw [hg] at hexp
    obtain ⟨r, hput, hrest⟩ := Option.bind_eq_some_iff.mp hexp
    have hmapped := freeFrom_putPage (hb.getFreeFrame (by omega)) hn hput
    dsimp only at hrest
    split_ifs at hrest
    · -- the frame is given back
      obtain ⟨b, hfreed, heq⟩ := Option.map_eq_some_iff.mp hrest
      obtain ⟨-, rfl⟩ := Prod.mk.inj heq
      obtain ⟨j, hj, haddr, -⟩ := hb.frame (by omega)
      obtain ⟨b', hb', hbits⟩ := freeFrame_spec r.2.bitmap (hj.trans_lt (by omega))
      obtain rfl : b' = b := Option.some.inj (hb'.symm.trans (haddr ▸ hfreed))
      intro i hi htaken
      rw [hbits, Bool.or_eq_false_iff] at htaken
      exact hmapped i hi htaken.1
    · obtain ⟨-, rfl⟩ := Prod.mk.inj (Option.some.inj hrest)
      exact hmapped

theorem freeFrom_kscmInitPaging {s : Mem} (h₀ : kscmInitPaging high dir = some s) :
    FreeFrom 4 s.bitmap := by
  have hpages := pagingPages_eq
  obtain ⟨⟨q, t⟩, hput, rfl⟩ := Option.map_eq_some_iff.mp h₀
  have h₃ := ((freeFrom_initBitmap.getFreeFrame (by omega)).getFreeFrame (by omega)).getFreeFrame
    (by omega)
  exact freeFrom_putPage (n := 3) h₃ (by omega) hput

/-- **A page is granted** where the table has room for it and the next frame has memory behind
it. -/
theorem exists_granted {n : ℕ} (hhigh : high ≤ 68156416) (hm : Paged high m)
    (hr : region ∈ growing) (hg : growTable region m.table = some (p, table))
    (hb : FreeFrom n m.bitmap) (hn : frameAddr n < high) :
    ∃ t, Expands high m (region, p) t ∧ t.table = table := by
  have hpages := pagingPages_eq
  have hlt : n < pagingPages := by
    simp only [frameAddr, lowMem] at hn
    omega
  obtain ⟨h, k, l, hs⟩ := hm.shape
  obtain ⟨hp0, hptr⟩ := growTable_page hs hr hg
  obtain ⟨j, hj, haddr, hbits⟩ := hb.frame hlt
  have hlow : frameAddr j < high := (frameAddr_mono hj).trans_lt hn
  have hslots : ¬mmSlots < region := by
    simp only [growing, List.mem_cons, List.not_mem_nil, or_false] at hr
    rcases hr with rfl | rfl | rfl <;> decide
  have hshape : ∃ h k l, Shape table h k l := by
    rcases growTable_cases hs hr hg with ⟨-, -, hs'⟩ | ⟨-, -, hs'⟩ | ⟨-, -, hs'⟩ <;>
      exact ⟨_, _, _, hs'⟩
  have hm' : Paged high { m with table, bitmap := (getFreeFrame m.bitmap).2 } :=
    ⟨hshape, hm.present, hm.backed.take hlow hbits⟩
  rcases putPage_spec hm' hhigh hptr (j := j) with ⟨hle, -⟩ | ⟨t, -, hput, htable, -⟩
  · omega
  · refine ⟨t, ⟨hr, ?_⟩, htable⟩
    simp [expandRegion, hslots, hg, haddr, hput, hp0]

/-! ## The run theorem -/

/-- **Regions stay apart**: in every state reached from `kscm_init_paging`, by calls that succeed or
fail, `expand_region` returns a page of no region or none at all, and no page is returned twice. -/
theorem separate_of_run {ext : BitVec 16} {dir : ℕ → ℕ} {s₀ s : Mem} {calls : List (ℕ × ℕ)}
    (h₀ : kscmInitPaging (highMemory ext) dir = some s₀)
    (hr : Runs (Expands (highMemory ext)) s₀ calls s) :
    Separate s.table ∧ (pages calls).Nodup ∧
      ∀ region ∈ growing, ∃ q t, expandRegion (highMemory ext) region s = some (q, t) ∧
        (q ≠ 0 → FreshPage s.table t.table region q) := by
  have hhigh := highMemory_le ext
  obtain ⟨s', hs', -, hm⟩ := exists_kscmInitPaging (highMemory ext) dir
  obtain rfl := Option.some.inj (h₀.symm.trans hs')
  obtain ⟨hm, hnodup, -⟩ := expands_run hhigh hr hm
  obtain ⟨h, k, l, hs⟩ := hm.shape
  refine ⟨hs.separate, hnodup, fun region hregion => ?_⟩
  obtain ⟨q, t, hexp⟩ : ∃ q t, expandRegion (highMemory ext) region s = some (q, t) := by
    rcases expandRegion_spec hm hhigh hregion with hnull | ⟨_, _, q, t, _, hexp, -⟩
    · exact ⟨0, s, hnull⟩
    · exact ⟨q, t, hexp⟩
  exact ⟨q, t, hexp, (expands_step hhigh hm (show Expands _ s (region, q) t from
    ⟨hregion, hexp⟩)).2.2⟩

/-! ## Three pages -/

/-- The table with a page more for the heap. -/
def heapTable : Table := Function.update initTable mmHeap ⟨kHeapStart, 2 * kPgSize, mmrExpandUp⟩

/-- And one more for the stack. -/
def stackTable : Table :=
  Function.update heapTable mmStack ⟨kStackStart - kPgSize, 2 * kPgSize, mmrExpandDown⟩

/-- And one more for the slots. -/
def slotsTable : Table :=
  Function.update stackTable mmSlots ⟨kSlotsStart, 2 * kPgSize, mmrExpandUp⟩

/-- A page for the heap, one for the stack and one for the slots. -/
def threeCalls : List (ℕ × ℕ) :=
  [(mmHeap, kHeapStart + kPgSize), (mmStack, kStackStart - kPgSize),
    (mmSlots, kSlotsStart + kPgSize)]

/-- With 16 megabytes all three are granted. -/
theorem exists_threeCalls : ∃ s₀ s, kscmInitPaging (highMemory 15360#16) (fun _ => 0) = some s₀ ∧
    Runs (Expands (highMemory 15360#16)) s₀ threeCalls s := by
  have hhigh := highMemory_le 15360#16
  have hpages := pagingPages_eq
  obtain ⟨s₀, h₀, htable, hm₀⟩ := exists_kscmInitPaging (highMemory 15360#16) fun _ => 0
  have hg₁ : growTable mmHeap s₀.table = some (kHeapStart + kPgSize, heapTable) := by
    simp [growTable, htable, initTable, heapTable, mmHeap, kPgSize, kHeapStart, lowMem,
      kStackStart, mmrExpandUp, mmrExpandDown]
  have hfree₀ := freeFrom_kscmInitPaging h₀
  obtain ⟨s₁, hst₁, ht₁⟩ := exists_granted hhigh hm₀ (by decide) hg₁ hfree₀ (by decide)
  have hfree₁ := freeFrom_expandRegion hfree₀ (by omega) hst₁.2
  have hm₁ := (expands_step hhigh hm₀ hst₁).1
  have hg₂ : growTable mmStack s₁.table = some (kStackStart - kPgSize, stackTable) := by
    simp [growTable, ht₁, initTable, heapTable, stackTable, mmHeap, mmStack, kPgSize, kHeapStart,
      lowMem, kStackStart, mmrExpandUp, mmrExpandDown]
  obtain ⟨s₂, hst₂, ht₂⟩ := exists_granted hhigh hm₁ (by decide) hg₂ hfree₁ (by decide)
  have hfree₂ := freeFrom_expandRegion hfree₁ (by omega) hst₂.2
  have hm₂ := (expands_step hhigh hm₁ hst₂).1
  have hg₃ : growTable mmSlots s₂.table = some (kSlotsStart + kPgSize, slotsTable) := by
    simp [growTable, ht₂, initTable, heapTable, stackTable, slotsTable, mmHeap, mmStack, mmSlots,
      kPgSize, kHeapStart, lowMem, kStackStart, kSlotsStart, kSlotsSize, mmrExpandUp, mmrExpandDown]
  obtain ⟨s₃, hst₃, -⟩ := exists_granted hhigh hm₂ (by decide) hg₃ hfree₂ (by decide)
  exact ⟨s₀, s₃, h₀, .cons hst₁ (.cons hst₂ (.single hst₃))⟩

/-- The three pages differ, and the regions that they went to are apart. -/
theorem separate_of_run_three : ∃ s₀ s,
    kscmInitPaging (highMemory 15360#16) (fun _ => 0) = some s₀ ∧
      Runs (Expands (highMemory 15360#16)) s₀ threeCalls s ∧ (pages threeCalls).length = 3 ∧
      Separate s.table ∧ (pages threeCalls).Nodup := by
  obtain ⟨s₀, s, h₀, hr⟩ := exists_threeCalls
  have hsep := separate_of_run h₀ hr
  exact ⟨s₀, s, h₀, hr, by decide, hsep.1, hsep.2.1⟩

end SchemeOs.Memory
