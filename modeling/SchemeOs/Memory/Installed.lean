import SchemeOs.Memory.Regions

/-!
# Memory/Installed — the frames in page directory and page tables

`put_page` checks the frame of a page against the physical memory, but not the frame that it gets
for a page table, and `kscm_init_paging` does not check the page table and the page of the stack.
As long as those have memory behind them, every frame installed has, and is installed once.

To the paging state of `Memory/Regions` this adds what the page tables hold.  A page table is where
its frame is, so the tables are a function of frame and index.
-/

namespace SchemeOs.Memory

/-! ## The page tables

The contents of the directory and of the tables, which `Memory/Regions` leaves out. -/

/-- `PGT_IDX`. -/
def pgtIdx (addr : ℕ) : ℕ := (addr >>> 12) &&& 0x3ff

/-- What the page tables in physical memory hold, by frame and index. -/
abbrev Tables := ℕ → ℕ → ℕ

/-- The page table at `frame`, with the entry of the page at `ptr` set. -/
def setEntry (frame ptr val : ℕ) (tables : Tables) : Tables :=
  Function.update tables frame (Function.update (tables frame) (pgtIdx ptr) val)

/-- `clear_page` of a page table. -/
def clearTable (frame : ℕ) (tables : Tables) : Tables := Function.update tables frame fun _ => 0

/-- The frame of a directory or table entry. -/
def frameOf (entry : ℕ) : ℕ := entry &&& 0xfffff000

/-- What `put_page` does to the page tables. -/
def putEntry (high ptr page : ℕ) (m : Mem) (tables : Tables) : Tables :=
  if page < lowMem ∨ high ≤ page then tables
  else if m.pageDir (pdtIdx ptr) = 0 then
    let frame := (getFreeFrame m.bitmap).1
    setEntry frame ptr (page ||| 0x3) (clearTable frame tables)
  else setEntry (frameOf (m.pageDir (pdtIdx ptr))) ptr (page ||| 0x3) tables

/-- What `expand_region` does to the page tables. -/
def expandEntry (high region : ℕ) (m : Mem) (tables : Tables) : Tables :=
  if mmSlots < region then tables
  else match growTable region m.table with
    | none => tables
    | some (p, table) =>
      let f := getFreeFrame m.bitmap
      putEntry high p f.1 { m with table, bitmap := f.2 } tables

/-- The page tables that `kscm_init_paging` leaves. -/
def initTables (high : ℕ) (dir : ℕ → ℕ) (tables : Tables) : Tables :=
  let f₁ := getFreeFrame initBitmap
  let f₂ := getFreeFrame f₁.2
  let f₃ := getFreeFrame f₂.2
  putEntry high kHeapStart f₃.1 ⟨initTable, f₃.2, clearedDir dir f₁.1⟩
    (setEntry f₁.1 kStackStart (f₂.1 ||| 0x7) (clearTable f₁.1 tables))

/-- The paging state with the page tables. -/
structure Space where
  mem : Mem
  tables : Tables

/-- A call of `expand_region`, with its result. -/
def Extends (high : ℕ) (s : Space) (call : ℕ × ℕ) (t : Space) : Prop :=
  Expands high s.mem call t.mem ∧ t.tables = expandEntry high call.1 s.mem s.tables

/-! ## The property -/

/-- A place for a frame: an entry of the page directory or of one of its page tables. -/
inductive Slot where
  | pde (i : ℕ)
  | pte (i j : ℕ)
  deriving DecidableEq, Repr

/-- A directory entry that `kscm_init_paging` clears, other than the one that page tables are
written through. -/
structure IsOwn (i : ℕ) : Prop where
  ge : lowMem >>> 22 ≤ i
  lt : i < 1024
  ne : i ≠ tempPage

/-- The frame `f` is installed in a slot. -/
def Installed (dir : ℕ → ℕ) (tables : Tables) : Slot → ℕ → Prop
  | .pde i, f => IsOwn i ∧ dir i ≠ 0 ∧ f = frameOf (dir i)
  | .pte i j, f => IsOwn i ∧ dir i ≠ 0 ∧ tables (frameOf (dir i)) j ≠ 0 ∧
      f = frameOf (tables (frameOf (dir i)) j)

/-- The frame `f` is installed in a slot. -/
abbrev Space.Installed (s : Space) : Slot → ℕ → Prop := Memory.Installed s.mem.pageDir s.tables

/-- Every frame installed has memory behind it, and no frame is installed twice. -/
structure Space.Proper (high : ℕ) (s : Space) : Prop where
  bounds : ∀ slot f, s.Installed slot f → f ≠ 0 ∧ lowMem ≤ f ∧ f < high
  once : ∀ slot slot' f, s.Installed slot f → s.Installed slot' f → slot = slot'

/-! ## The condition

Every page table that is made must itself be in reach of the kernel. -/

/-- The frames that `kscm_init_paging` installs have memory behind them: those of the stack, and the
page table of the heap if its page is accepted. -/
structure InitFits (high : ℕ) : Prop where
  stack : frameAddr 1 < high
  heap : frameAddr 2 < high → frameAddr 3 < high

/-- If the page of a call needs a page table, the frame for it has memory behind it. -/
def TableFits (high region : ℕ) (m : Mem) : Prop :=
  ∀ p table, growTable region m.table = some (p, table) → m.pageDir (pdtIdx p) = 0 →
    let f := getFreeFrame m.bitmap
    lowMem ≤ f.1 → f.1 < high → lowMem ≤ (getFreeFrame f.2).1 ∧ (getFreeFrame f.2).1 < high

/-! ## Entries -/

variable {high i k c ptr page q : ℕ} {s t : Space} {m m' : Mem} {dir dir' : ℕ → ℕ} {tables : Tables}
  {slot : Slot} {f : ℕ}

theorem frameOf_or (hk : k < pagingPages) (hc : c < 4096) :
    frameOf (frameAddr k ||| c) = frameAddr k := by
  have hshift : frameAddr k = (2048 + k) <<< 12 := by
    rw [Nat.shiftLeft_eq, frameAddr, lowMem]
    omega
  have hkeep : frameAddr k &&& 0xfffff000 = frameAddr k := by
    have hmod : 2048 + k &&& 2 ^ 20 - 1 = 2048 + k := by
      rw [Nat.and_two_pow_sub_one_eq_mod]
      rw [pagingPages_eq] at hk
      omega
    rw [hshift, show 0xfffff000 = (2 ^ 20 - 1) <<< 12 from rfl, ← Nat.shiftLeft_and_distrib, hmod]
  have hdrop : c &&& 0xfffff000 = 0 := by
    refine Nat.eq_of_testBit_eq fun n => ?_
    rw [show 0xfffff000 = (2 ^ 20 - 1) <<< 12 from rfl, Nat.testBit_and, Nat.testBit_shiftLeft,
      Nat.zero_testBit]
    by_cases hn : 12 ≤ n
    · have hpow : 2 ^ 12 ≤ 2 ^ n := Nat.pow_le_pow_right (by decide) hn
      rw [Nat.testBit_lt_two_pow (hc.trans_le hpow), Bool.false_and]
    · rw [decide_eq_false hn, Bool.false_and, Bool.and_false]
  rw [frameOf, Nat.and_or_distrib_right, hkeep, hdrop, Nat.or_zero]

/-- The entry that page tables are written through is not one of those looked at. -/
theorem installed_tempMapPage {addr : ℕ} :
    Installed (tempMapPage addr dir) tables slot f ↔ Installed dir tables slot f := by
  have hdir (i : ℕ) (hi : IsOwn i) : tempMapPage addr dir i = dir i := by
    rw [tempMapPage, Function.update_of_ne hi.ne]
  cases slot with
  | pde i =>
    refine and_congr_right fun hi => ?_
    rw [hdir i hi]
  | pte i j =>
    refine and_congr_right fun hi => ?_
    rw [hdir i hi]

theorem or_ne_zero (hc : c ≠ 0) : k ||| c ≠ 0 := fun h => hc (Nat.or_eq_zero_iff.mp h).2

/-! ## The invariant -/

/-- A frame is taken. -/
def Taken (b : Bitmap) (k : ℕ) : Prop := isFree b k = false

/-- A relation between slots and frames: the frames are among those taken, have memory behind them
and are in one slot each. -/
structure Sole (high : ℕ) (T : ℕ → Prop) (I : Slot → ℕ → Prop) : Prop where
  taken : ∀ slot f, I slot f → ∃ k < pagingPages, f = frameAddr k ∧ T k
  fits : ∀ slot f, I slot f → f < high
  once : ∀ slot slot' f, I slot f → I slot' f → slot = slot'

namespace Sole

variable {T T' : ℕ → Prop} {I I' : Slot → ℕ → Prop}

/-- Frames are taken, and not installed. -/
theorem mono (h : Sole high T I) (hI : ∀ slot f, I' slot f → I slot f)
    (hT : ∀ k, T k → T' k) : Sole high T' I' where
  taken slot f hf := by
    obtain ⟨k, hk, hfk, htaken⟩ := h.taken slot f (hI slot f hf)
    exact ⟨k, hk, hfk, hT k htaken⟩
  fits slot f hf := h.fits slot f (hI slot f hf)
  once slot slot' f hf hf' := h.once slot slot' f (hI slot f hf) (hI slot' f hf')

/-- A frame that is not taken is not installed. -/
theorem not_installed (h : Sole high T I) (hfree : ¬T k) (slot : Slot) : ¬I slot (frameAddr k) := by
  intro hold
  obtain ⟨n, -, hkn, htaken⟩ := h.taken slot _ hold
  exact hfree (frameAddr_injective hkn ▸ htaken)

/-- **A free frame is taken and installed** in one slot. -/
theorem install (h : Sole high T I) (slot : Slot) (hk : k < pagingPages) (hfree : ¬T k)
    (hfit : frameAddr k < high) (hT : ∀ n, T n → T' n) (hk' : T' k)
    (hI : ∀ slot' f, I' slot' f → I slot' f ∨ slot' = slot ∧ f = frameAddr k) :
    Sole high T' I' where
  taken slot' f hf := by
    rcases hI slot' f hf with hold | ⟨-, rfl⟩
    · obtain ⟨n, hn, hfn, htaken⟩ := h.taken slot' f hold
      exact ⟨n, hn, hfn, hT n htaken⟩
    · exact ⟨k, hk, rfl, hk'⟩
  fits slot' f hf := by
    rcases hI slot' f hf with hold | ⟨-, rfl⟩
    · exact h.fits slot' f hold
    · exact hfit
  once slot₁ slot₂ f h₁ h₂ := by
    rcases hI slot₁ f h₁ with hold₁ | ⟨hs₁, hf₁⟩ <;> rcases hI slot₂ f h₂ with hold₂ | ⟨hs₂, hf₂⟩
    · exact h.once slot₁ slot₂ f hold₁ hold₂
    · exact absurd (hf₂ ▸ hold₁) (h.not_installed hfree slot₁)
    · exact absurd (hf₁ ▸ hold₂) (h.not_installed hfree slot₂)
    · rw [hs₁, hs₂]

/-- A page table with its frame is installed. -/
theorem table (h : Sole high T (Installed dir tables)) (T' : ℕ → Prop) (hi : IsOwn i)
    (hzero : dir i = 0) (hk : k < pagingPages) (hfree : ¬T k) (hfit : frameAddr k < high)
    (hT : ∀ n, T n → T' n) (hk' : T' k) (hc : c < 4096) :
    Sole high T' (Installed (Function.update dir i (frameAddr k ||| c))
      (clearTable (frameAddr k) tables)) := by
  refine h.install (.pde i) hk hfree hfit hT hk' fun slot' f hf => ?_
  cases slot' with
  | pde i' =>
    obtain ⟨hi', hne, hf⟩ := hf
    by_cases heq : i' = i
    · subst heq
      rw [Function.update_self, frameOf_or hk hc] at hf
      exact .inr ⟨rfl, hf⟩
    · rw [Function.update_of_ne heq] at hne hf
      exact .inl ⟨hi', hne, hf⟩
  | pte i' j =>
    obtain ⟨hi', hne, hentry, hf⟩ := hf
    by_cases heq : i' = i
    · subst heq
      rw [Function.update_self, frameOf_or hk hc, clearTable, Function.update_self] at hentry
      exact absurd rfl hentry
    · -- the page tables that are there are others
      rw [Function.update_of_ne heq] at hne hentry hf
      have hother : frameOf (dir i') ≠ frameAddr k := fun hk' =>
        h.not_installed hfree (.pde i') ⟨hi', hne, hk'.symm⟩
      rw [clearTable, Function.update_of_ne hother] at hentry hf
      exact .inl ⟨hi', hne, hentry, hf⟩

/-- A page with its frame is installed in a page table. -/
theorem entry (h : Sole high T (Installed dir tables)) (T' : ℕ → Prop) (hi : IsOwn (pdtIdx ptr))
    (hpresent : dir (pdtIdx ptr) ≠ 0) (hk : k < pagingPages) (hfree : ¬T k)
    (hfit : frameAddr k < high) (hT : ∀ n, T n → T' n) (hk' : T' k) (hc : c < 4096) :
    Sole high T' (Installed dir
      (setEntry (frameOf (dir (pdtIdx ptr))) ptr (frameAddr k ||| c) tables)) := by
  refine h.install (.pte (pdtIdx ptr) (pgtIdx ptr)) hk hfree hfit hT hk' fun slot' f hf => ?_
  cases slot' with
  | pde i' => exact .inl hf
  | pte i' j =>
    obtain ⟨hi', hne, hentry, hf⟩ := hf
    by_cases htable : frameOf (dir i') = frameOf (dir (pdtIdx ptr))
    · -- the page table has one directory entry
      obtain rfl : i' = pdtIdx ptr := by
        have := h.once (.pde i') (.pde (pdtIdx ptr)) _ ⟨hi', hne, rfl⟩ ⟨hi, hpresent, htable⟩
        exact Slot.pde.inj this
      by_cases hj : j = pgtIdx ptr
      · subst hj
        rw [setEntry, Function.update_self, Function.update_self, frameOf_or hk hc] at hf
        exact .inr ⟨rfl, hf⟩
      · rw [setEntry, Function.update_self, Function.update_of_ne hj] at hentry hf
        exact .inl ⟨hi', hne, hentry, hf⟩
    · rw [setEntry, Function.update_of_ne htable] at hentry hf
      exact .inl ⟨hi', hne, hentry, hf⟩

end Sole

/-! ## The functions

Frames are taken once, so that no two entries have the same one. -/

/-- A frame that `get_free_frame` returned was free, and is taken. -/
theorem getFreeFrame_taken {b : Bitmap} (hlow : lowMem ≤ (getFreeFrame b).1) :
    ∃ k < pagingPages, (getFreeFrame b).1 = frameAddr k ∧ ¬Taken b k ∧
      Taken (getFreeFrame b).2 k ∧ ∀ n, Taken b n → Taken (getFreeFrame b).2 n := by
  rcases getFreeFrame_spec b with ⟨hget, -⟩ | ⟨k, hk, haddr, hfree, -, hbits⟩
  · rw [hget] at hlow
    exact absurd hlow (show ¬lowMem ≤ 0 by decide)
  · refine ⟨k, hk, haddr, fun h => ?_, ?_, fun n hn => ?_⟩
    · rw [Taken, hfree] at h
      exact Bool.noConfusion h
    · simp [Taken, hbits]
    · rw [Taken, hbits, show isFree b n = false from hn, Bool.false_and]

theorem fst_putPage (hlow : ¬page < lowMem) (hhigh : page < high)
    (hput : putPage high ptr page m = some (q, m')) : q = ptr := by
  rw [putPage] at hput
  split_ifs at hput with hrefused
  · omega
  · exact (Prod.mk.inj (Option.some.inj hput)).1.symm
  · exact (Prod.mk.inj (Option.some.inj hput)).1.symm

/-- **`put_page`** installs the page, and its page table if that is new and has memory behind it. -/
theorem sole_putPage {T : ℕ → Prop} (hs : Sole high T (Installed m.pageDir tables))
    (hT : ∀ n, T n → Taken m.bitmap n) (hk : k < pagingPages) (hfree : ¬T k)
    (hk' : Taken m.bitmap k) (hi : IsOwn (pdtIdx ptr))
    (hfit : m.pageDir (pdtIdx ptr) = 0 → frameAddr k < high →
      lowMem ≤ (getFreeFrame m.bitmap).1 ∧ (getFreeFrame m.bitmap).1 < high)
    (hput : putPage high ptr (frameAddr k) m = some (q, m')) :
    Sole high (Taken m'.bitmap)
      (Installed m'.pageDir (putEntry high ptr (frameAddr k) m tables)) := by
  have hlow : ¬frameAddr k < lowMem := by simp [frameAddr]
  rw [putPage] at hput
  rw [putEntry]
  split_ifs at hput ⊢ with hrefused hzero hswap
  · obtain ⟨-, rfl⟩ := Prod.mk.inj (Option.some.inj hput)
    exact hs.mono (fun _ _ h => h) hT
  · -- the page table is installed first
    obtain ⟨-, rfl⟩ := Prod.mk.inj (Option.some.inj hput)
    obtain ⟨hge, hlt⟩ := hfit hzero (by omega)
    obtain ⟨n, hn, haddr, hnfree, hn', hmono⟩ := getFreeFrame_taken hge
    rw [haddr] at hlt
    have htable := hs.table (c := 0x3) (fun j => T j ∨ j = n) hi hzero hn
      (fun h => hnfree (hT n h)) hlt (fun _ => Or.inl) (Or.inr rfl) (by decide)
    have hne : k ≠ n := fun heq => hnfree (heq ▸ hk')
    have hentry := htable.entry (c := 0x3) (Taken (getFreeFrame m.bitmap).2) hi
      (by rw [Function.update_self]; exact or_ne_zero (by decide)) hk
      (fun h => h.elim hfree hne) (by omega)
      (fun j hj => hj.elim (fun h => hmono j (hT j h)) fun h => h ▸ hn') (hmono k hk') (by decide)
    rw [Function.update_self, frameOf_or hn (by decide)] at hentry
    refine hentry.mono (fun slot f hf => ?_) fun _ h => h
    dsimp only at hf
    rw [haddr] at hf
    exact installed_tempMapPage.mp hf
  · obtain ⟨-, rfl⟩ := Prod.mk.inj (Option.some.inj hput)
    have hentry := hs.entry (c := 0x3) (Taken m.bitmap) hi hzero hk hfree (by omega) hT hk'
      (by decide)
    exact hentry.mono (fun slot f hf => installed_tempMapPage.mp hf) fun _ h => h

/-- The pages of the regions have directory entries of their own. -/
theorem isOwn_of_growTable {table table' : Table} {region p h l n : ℕ} (hs : Shape table h n l)
    (hr : region ∈ growing) (hg : growTable region table = some (p, table')) :
    IsOwn (pdtIdx p) := by
  obtain ⟨-, hge, hlt, hne⟩ := growTable_page hs hr hg
  exact ⟨hge, hlt, hne⟩

/-- **`expand_region`** keeps every frame in one slot. -/
theorem sole_expandRegion {region : ℕ} (hhigh : high ≤ 68156416) (hm : Paged high m)
    (hs : Sole high (Taken m.bitmap) (Installed m.pageDir tables)) (hr : region ∈ growing)
    (hfit : TableFits high region m) (hexp : expandRegion high region m = some (q, m')) :
    Sole high (Taken m'.bitmap) (Installed m'.pageDir (expandEntry high region m tables)) := by
  have hslots : ¬mmSlots < region := by
    simp only [growing, List.mem_cons, List.not_mem_nil, or_false] at hr
    rcases hr with rfl | rfl | rfl <;> decide
  rw [expandRegion, if_neg hslots] at hexp
  rw [expandEntry, if_neg hslots]
  cases hg : growTable region m.table with
  | none =>
    rw [hg] at hexp
    obtain ⟨-, rfl⟩ := Prod.mk.inj (Option.some.inj hexp)
    exact hs
  | some pt =>
    obtain ⟨p, table⟩ := pt
    obtain ⟨h, n, l, hshape⟩ := hm.shape
    have hown := isOwn_of_growTable hshape hr hg
    have hp := (growTable_page hshape hr hg).1
    obtain ⟨k, hk, haddr, hfree, hbits⟩ := hm.backed.getFreeFrame hhigh
    have hlow : lowMem ≤ frameAddr k := Nat.le_add_right _ _
    have hfree' : ¬Taken m.bitmap k := by simp [Taken, hfree]
    have hfit' := hfit p table hg
    rw [hg] at hexp
    dsimp only at hexp hfit' ⊢
    rw [haddr] at hexp hfit' ⊢
    obtain ⟨⟨r, t⟩, hput, hexp⟩ := Option.bind_eq_some_iff.mp hexp
    by_cases hhi : frameAddr k < high
    · have hput' := sole_putPage (m := { m with table, bitmap := (getFreeFrame m.bitmap).2 }) hs
        (fun j hj => by simp [Taken, hbits, show isFree m.bitmap j = false from hj]) hk hfree'
        (by simp [Taken, hbits]) hown (fun hzero _ => hfit' hzero hlow hhi) hput
      obtain rfl : r = p := fst_putPage (Nat.not_lt.mpr hlow) hhi hput
      rw [if_neg hp] at hexp
      obtain ⟨-, rfl⟩ := Prod.mk.inj (Option.some.inj hexp)
      exact hput'
    · -- the frame is given back, and no entry is written
      rw [putPage_refused (Nat.not_lt.mp hhi)] at hput
      obtain ⟨rfl, rfl⟩ := Prod.mk.inj (Option.some.inj hput)
      rw [if_pos rfl] at hexp
      obtain ⟨b, hb, hexp⟩ := Option.map_eq_some_iff.mp hexp
      obtain ⟨-, rfl⟩ := Prod.mk.inj hexp
      obtain ⟨b', hb', hbits'⟩ := freeFrame_spec (getFreeFrame m.bitmap).2 hk
      obtain rfl : b' = b := Option.some.inj (hb'.symm.trans hb)
      rw [putEntry, if_pos (Or.inr (Nat.not_lt.mp hhi))]
      refine hs.mono (fun _ _ h => h) fun j hj => ?_
      have hne : j ≠ k := fun heq => hfree' (heq ▸ hj)
      rw [Taken, hbits', hbits, show isFree m.bitmap j = false from hj, Bool.false_and,
        decide_eq_false hne, Bool.or_false]

/-! ## The start -/

/-- The next frame, when the frames taken are the first `n`. -/
theorem getFreeFrame_nth {b : Bitmap} {n : ℕ} (hb : ∀ j < pagingPages, Taken b j ↔ j < n)
    (hn : n < pagingPages) : (getFreeFrame b).1 = frameAddr n ∧
      ∀ j < pagingPages, Taken (getFreeFrame b).2 j ↔ j < n + 1 := by
  have hfree : isFree b n = true := by
    by_contra htaken
    exact absurd ((hb n hn).mp (by simpa [Taken] using htaken)) (Nat.lt_irrefl n)
  rcases getFreeFrame_spec b with ⟨-, hnone⟩ | ⟨k, hk, haddr, hk', hlow, hbits⟩
  · rw [hnone n hn] at hfree
    exact Bool.noConfusion hfree
  · obtain rfl : k = n := by
      rcases Nat.lt_trichotomy k n with hlt | heq | hgt
      · have := (hb k hk).mpr hlt
        rw [Taken, hk'] at this
        exact Bool.noConfusion this
      · exact heq
      · rw [hlow n hgt] at hfree
        exact Bool.noConfusion hfree
    refine ⟨haddr, fun j hj => ?_⟩
    have := hb j hj
    rw [Taken] at this
    rw [Taken, hbits, Bool.and_eq_false_iff, this, decide_eq_false_iff_not, Decidable.not_not]
    omega

/-- The first four frames, and those taken before the fourth. -/
theorem init_frames :
    let f₁ := getFreeFrame initBitmap
    let f₂ := getFreeFrame f₁.2
    let f₃ := getFreeFrame f₂.2
    f₁.1 = frameAddr 0 ∧ f₂.1 = frameAddr 1 ∧ f₃.1 = frameAddr 2 ∧
      (getFreeFrame f₃.2).1 = frameAddr 3 ∧ ∀ j < pagingPages, Taken f₃.2 j ↔ j < 3 := by
  have hpages := pagingPages_eq
  have h₀ : ∀ j < pagingPages, Taken initBitmap j ↔ j < 0 := fun j _ => by
    rw [Taken, isFree_initBitmap]
    simp
  obtain ⟨ha₁, h₁⟩ := getFreeFrame_nth h₀ (by omega)
  obtain ⟨ha₂, h₂⟩ := getFreeFrame_nth h₁ (by omega)
  obtain ⟨ha₃, h₃⟩ := getFreeFrame_nth h₂ (by omega)
  obtain ⟨ha₄, -⟩ := getFreeFrame_nth h₃ (by omega)
  exact ⟨ha₁, ha₂, ha₃, ha₄, h₃⟩

/-- **`kscm_init_paging`** puts every frame into one slot. -/
theorem sole_kscmInitPaging (hfit : InitFits high) (dir : ℕ → ℕ) (tables : Tables)
    (hinit : kscmInitPaging high dir = some m) :
    Sole high (Taken m.bitmap) (Installed m.pageDir (initTables high dir tables)) := by
  have hpages := pagingPages_eq
  obtain ⟨ha₁, ha₂, ha₃, ha₄, h₃⟩ := init_frames
  obtain ⟨⟨q, t⟩, hput, rfl⟩ := Option.map_eq_some_iff.mp hinit
  have hstack := hfit.stack
  have hfirst : frameAddr 0 < frameAddr 1 := by decide
  -- the directory is cleared, and the page table and the page of the stack are installed
  have hnone : Sole high (fun _ => False)
      (Installed (fun i => if lowMem >>> 22 ≤ i then 0 else dir i) tables) := by
    have hno (slot : Slot) (f : ℕ) :
        ¬Installed (fun i => if lowMem >>> 22 ≤ i then 0 else dir i) tables slot f := by
      cases slot with
      | pde i => exact fun h => h.2.1 (if_pos h.1.ge)
      | pte i j => exact fun h => h.2.1 (if_pos h.1.ge)
    exact ⟨fun slot f h => absurd h (hno slot f), fun slot f h => absurd h (hno slot f),
      fun slot _ f h => absurd h (hno slot f)⟩
  have hown : IsOwn (pdtIdx kStackStart) := ⟨by decide, by decide, by decide⟩
  have htable := hnone.table (k := 0) (c := 0x7) (fun j => j = 0) hown
    (if_pos (show lowMem >>> 22 ≤ pdtIdx kStackStart by decide)) (by omega) id (by omega)
    (fun _ h => h.elim) rfl (by decide)
  have hentry := htable.entry (k := 1) (c := 0x7) (fun j => j = 0 ∨ j = 1) hown
    (by rw [Function.update_self]; exact or_ne_zero (by decide)) (by omega) (by decide) hstack
    (fun _ => Or.inl) (Or.inr rfl) (by decide)
  rw [Function.update_self, frameOf_or (by omega) (by decide)] at hentry
  -- then those of the heap
  rw [initTables]
  dsimp only
  rw [ha₁, ha₃] at hput
  rw [ha₁, ha₂, ha₃]
  refine sole_putPage (hentry.mono (fun slot f h => installed_tempMapPage.mp h) fun _ h => h) ?_
    (by omega) (by decide) ((h₃ 2 (by omega)).mpr (by decide)) ⟨by decide, by decide, by decide⟩ ?_
    hput
  · rintro j (rfl | rfl)
    · exact (h₃ 0 (by omega)).mpr (by decide)
    · exact (h₃ 1 (by omega)).mpr (by decide)
  · intro _ hheap
    rw [ha₄]
    exact ⟨by decide, hfit.heap hheap⟩

/-! ## Runs -/

/-- A call whose page table, if it needs one, has memory behind it. -/
abbrev Fitting (high : ℕ) : Space → ℕ × ℕ → Space → Prop :=
  Guarded (fun s call => TableFits high call.1 s.mem) (Extends high)

/-- Every frame in a slot has memory behind it. -/
theorem Sole.proper {T : ℕ → Prop} (hs : Sole high T s.Installed) : s.Proper high where
  bounds slot f hf := by
    obtain ⟨k, -, rfl, -⟩ := hs.taken slot f hf
    exact ⟨frameAddr_pos.ne', Nat.le_add_right _ _, hs.fits slot _ hf⟩
  once := hs.once

/-- **Frames are installed once, and have memory behind them**, in every state reached from
`kscm_init_paging` by calls that get page tables with memory behind them. -/
theorem proper_of_run {ext : BitVec 16} {dir : ℕ → ℕ} {tables : Tables} {m : Mem}
    {calls : List (ℕ × ℕ)} (hinit : kscmInitPaging (highMemory ext) dir = some m)
    (hfit : InitFits (highMemory ext))
    (hr : Runs (Fitting (highMemory ext)) ⟨m, initTables (highMemory ext) dir tables⟩ calls s) :
    s.Proper (highMemory ext) := by
  have hhigh := highMemory_le ext
  obtain ⟨m', hm', -, hpaged⟩ := exists_kscmInitPaging (highMemory ext) dir
  obtain rfl := Option.some.inj (hinit.symm.trans hm')
  have hinv := hr.guarded_invariant
    (P := fun s => Paged (highMemory ext) s.mem ∧
      Sole (highMemory ext) (Taken s.mem.bitmap) s.Installed)
    (fun s call t hs hg hst => ?_) ⟨hpaged, sole_kscmInitPaging hfit dir tables hinit⟩
  · exact hinv.2.proper
  · obtain ⟨hexp, htables⟩ := hst
    refine ⟨(expands_step hhigh hs.1 hexp).1, ?_⟩
    rw [Space.Installed, htables]
    exact sole_expandRegion hhigh hs.1 hs.2 hexp.1 hg hexp.2

/-- A page table gets the next frame but one at most. -/
theorem tableFits_of_freeFrom {n region : ℕ} (hb : FreeFrom n m.bitmap)
    (hn : n + 1 < pagingPages) (hhigh : frameAddr (n + 1) < high) : TableFits high region m := by
  intro p table _ _ f _ _
  obtain ⟨j, hj, haddr, -⟩ := (hb.getFreeFrame (by omega)).frame hn
  rw [haddr]
  exact ⟨Nat.le_add_right _ _, (frameAddr_mono hj).trans_lt hhigh⟩

/-- While there is memory behind the frames, the page tables of a run have memory behind them. -/
theorem exists_fitting {n : ℕ} {calls : List (ℕ × ℕ)} (hhigh : high ≤ 68156416)
    (hr : Runs (Expands high) m calls m') (hb : FreeFrom n m.bitmap)
    (hn : frameAddr (n + 2 * calls.length) < high) (tables : Tables) :
    ∃ tables', Runs (Fitting high) ⟨m, tables⟩ calls ⟨m', tables'⟩ := by
  have hpages := pagingPages_eq
  induction hr generalizing n tables with
  | nil m => exact ⟨tables, .nil _⟩
  | @cons m m₁ m' call calls hst _ ih =>
    rw [List.length_cons] at hn
    have hnext : frameAddr (n + 1) < high := (frameAddr_mono (by omega)).trans_lt hn
    have hlt : n + 1 < pagingPages := by
      have := hnext.trans_le hhigh
      simp only [frameAddr, lowMem] at this
      omega
    obtain ⟨tables', hrun⟩ := ih (freeFrom_expandRegion hb hlt hst.2)
      ((frameAddr_mono (by omega)).trans_lt hn) (expandEntry high call.1 m tables)
    exact ⟨tables', .cons ⟨tableFits_of_freeFrom hb hlt hnext, hst, rfl⟩ hrun⟩

/-- The page tables of heap and stack are there from the start, that of the slots is not. -/
theorem pageDir_slots (hinit : kscmInitPaging high (fun _ => 0) = some m) :
    m.pageDir (pdtIdx (kSlotsStart + kPgSize)) = 0 := by
  obtain ⟨⟨q, t⟩, hput, rfl⟩ := Option.map_eq_some_iff.mp hinit
  have hne : pdtIdx (kSlotsStart + kPgSize) ≠ tempPage := by decide
  have hne' : pdtIdx (kSlotsStart + kPgSize) ≠ pdtIdx kStackStart := by decide
  have hne'' : pdtIdx (kSlotsStart + kPgSize) ≠ pdtIdx kHeapStart := by decide
  rw [putPage] at hput
  split_ifs at hput <;> obtain ⟨-, rfl⟩ := Prod.mk.inj (Option.some.inj hput)
  all_goals simp [clearedDir, tempMapPage, hne, hne', hne'']

/-- With 16 megabytes, the heap, the stack and the slots get a page each, the slots one that needs
a page table. -/
theorem proper_of_run_three : ∃ m s, kscmInitPaging (highMemory 15360#16) (fun _ => 0) = some m ∧
    m.pageDir (pdtIdx (kSlotsStart + kPgSize)) = 0 ∧
    Runs (Fitting (highMemory 15360#16))
      ⟨m, initTables (highMemory 15360#16) (fun _ => 0) fun _ _ => 0⟩ threeCalls s ∧
    s.Proper (highMemory 15360#16) := by
  obtain ⟨m, m', hm, hcalls⟩ := exists_threeCalls
  obtain ⟨tables, hr⟩ := exists_fitting (highMemory_le 15360#16) hcalls
    (freeFrom_kscmInitPaging hm) (by decide)
    (initTables (highMemory 15360#16) (fun _ => 0) fun _ _ => 0)
  exact ⟨m, _, hm, pageDir_slots hm, hr, proper_of_run hm ⟨by decide, fun _ => by decide⟩ hr⟩

/-- With three frames above `LOW_MEM`, the page table of the heap is the one behind them. -/
theorem not_proper : ¬∀ (ext : BitVec 16) (dir : ℕ → ℕ) (tables : Tables) (m : Mem)
    (calls : List (ℕ × ℕ)) (s : Space), kscmInitPaging (highMemory ext) dir = some m →
      Runs (Extends (highMemory ext)) ⟨m, initTables (highMemory ext) dir tables⟩ calls s →
        s.Proper (highMemory ext) := by
  intro hall
  obtain ⟨m, hm, -⟩ := exists_kscmInitPaging (highMemory 7180#16) fun _ => 0
  have hproper := hall _ _ (fun _ _ => 0) m [] _ hm (.nil _)
  obtain ⟨ha₁, -, ha₃, ha₄, -⟩ := init_frames
  have hdir : m.pageDir 2 = frameAddr 3 ||| 0x3 := by
    rw [kscmInitPaging] at hm
    obtain ⟨⟨q, t⟩, hput, rfl⟩ := Option.map_eq_some_iff.mp hm
    rw [ha₁, ha₃, putPage, if_neg (by decide), if_pos (by decide)] at hput
    obtain ⟨-, rfl⟩ := Prod.mk.inj (Option.some.inj hput)
    dsimp only
    rw [ha₄]
    rfl
  have hslot : Installed m.pageDir (initTables (highMemory 7180#16) (fun _ => 0) fun _ _ => 0)
      (.pde 2) (frameAddr 3) := by
    refine ⟨⟨by decide, by decide, by decide⟩, ?_, ?_⟩
    · rw [hdir]
      exact or_ne_zero (by decide)
    · rw [hdir, frameOf_or (by rw [pagingPages_eq]; decide) (by decide)]
  exact absurd (hproper.bounds _ _ hslot).2.2 (by decide)

end SchemeOs.Memory
