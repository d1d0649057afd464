import SchemeOs.Collector.Regions

/-!
# Collector/Slots — the slots of `mm/gc.c`

Two functions take slots at `_gc_next_slot`.  When no slot is free `gc_alloc_obj` goes on at the
page that it gets, or at `NULL` when it gets none; `gc_alloc_nobj` goes on where it is, and does not
look whether it got a page.  Both count the slots of a page as free in either case.
-/

namespace SchemeOs.Slots

open Memory (kPgSize kSlotsStart kSlotsSize pageAt)
open Collector (Expands)

/-! ## The functions -/

/-- `_gc_slot_size`, `_gc_free_nslots` and `_gc_next_slot`. -/
structure Gc where
  slotSize : ℕ
  freeNslots : ℕ
  nextSlot : ℕ
  deriving DecidableEq, Repr

/-- `kscm_init_gc` -/
def kscmInitGc (slotSize : ℕ) : Gc := ⟨slotSize, kPgSize / slotSize, kSlotsStart⟩

/-- `gc_alloc_obj`, where `expand_region` would return `p`. -/
def gcAllocObj (p : ℕ) (g : Gc) : ℕ × Gc :=
  let g :=
    if g.freeNslots < 1 then
      { g with nextSlot := p, freeNslots := (g.freeNslots + kPgSize / g.slotSize) % 2 ^ 32 }
    else g
  (g.nextSlot, { g with
    nextSlot := (g.nextSlot + g.slotSize) % 2 ^ 32
    freeNslots := (g.freeNslots + 2 ^ 32 - 1) % 2 ^ 32 })

/-- `gc_alloc_nobj` -/
def gcAllocNobj (n : ℕ) (g : Gc) : ℕ × Gc :=
  let g :=
    if g.freeNslots < n then
      { g with freeNslots := (g.freeNslots + kPgSize / g.slotSize) % 2 ^ 32 }
    else g
  (g.nextSlot, { g with
    nextSlot := (g.nextSlot + n * g.slotSize) % 2 ^ 32
    freeNslots := (g.freeNslots + 2 ^ 32 - n) % 2 ^ 32 })

/-! ## The system -/

inductive Call where
  | obj
  | nobj (n : ℕ)

/-- The slots asked for. -/
def Call.count : Call → ℕ
  | .obj => 1
  | .nobj n => n

def Call.run (p : ℕ) : Call → Gc → ℕ × Gc
  | .obj => gcAllocObj p
  | .nobj n => gcAllocNobj n

/-- What a call returned: the slots asked for, the address, the slots that were free, and the page
that was obtained, or 0. -/
structure Result where
  n : ℕ
  ptr : ℕ
  free : ℕ
  page : ℕ

/-- The slots from which those of the call are subtracted, where a page has `c` of them. -/
def Result.avail (r : Result) (c : ℕ) : ℕ := if r.free < r.n then r.free + c else r.free

/-- There were enough free slots, with those of the page that was obtained. -/
def Result.Met (r : Result) (c : ℕ) : Prop := r.n ≤ r.free ∨ r.page ≠ 0 ∧ r.n ≤ r.free + c

/-- The addresses returned. -/
def Result.range (r : Result) (size : ℕ) : Set ℕ :=
  if r.ptr = 0 then ∅ else Set.Ico r.ptr (r.ptr + r.n * size)

/-- The variables, the end of the slots region, the pages obtained, and the results. -/
structure System where
  gc : Gc
  limit : ℕ
  pages : List ℕ
  results : List Result

/-- A call in which `expand_region` would return `p`. -/
structure Event where
  call : Call
  p : ℕ

def System.after (s : System) (e : Event) (limit : ℕ) : System :=
  let a := e.call.run e.p s.gc
  if s.gc.freeNslots < e.call.count then
    ⟨a.2, limit, if e.p = 0 then s.pages else e.p :: s.pages,
      ⟨e.call.count, a.1, s.gc.freeNslots, e.p⟩ :: s.results⟩
  else ⟨a.2, s.limit, s.pages, ⟨e.call.count, a.1, s.gc.freeNslots, 0⟩ :: s.results⟩

/-- The slots region never grows beyond its bound, and an `int` is asked for. -/
inductive Step : System → Event → System → Prop where
  | call {s : System} {e : Event} {limit : ℕ} : Expands s.limit e.p limit →
      limit ≤ kSlotsStart + kSlotsSize → e.call.count < 2 ^ 31 → Step s e (s.after e limit)

/-- What `kscm_init_gc` leaves. -/
def initial (slotSize : ℕ) : System :=
  ⟨kscmInitGc slotSize, kSlotsStart + kPgSize, [kSlotsStart], []⟩

/-- The slots of a page. -/
def Gc.perPage (g : Gc) : ℕ := kPgSize / g.slotSize

/-- The ranges returned are apart and lie in the pages obtained, the count has not underflowed, and
requests that could not be met returned `NULL`. -/
structure System.Sound (s : System) : Prop where
  inside : ∀ r ∈ s.results, ∀ x ∈ r.range s.gc.slotSize, ∃ p ∈ s.pages, x ∈ pageAt p
  disjoint : s.results.Pairwise fun a b => Disjoint (a.range s.gc.slotSize) (b.range s.gc.slotSize)
  count : ∀ r ∈ s.results, r.n ≤ r.avail s.gc.perPage
  null : ∀ r ∈ s.results, ¬r.Met s.gc.perPage → r.ptr = 0

/-- The next slot is none of the slots region, because `gc_alloc_obj` got no page. -/
def Gc.Lost (g : Gc) : Prop := g.nextSlot < kSlotsStart

/-- Whether a call does what it should. -/
def Event.Served (s : System) (e : Event) : Prop :=
  match e.call with
  | .obj => s.gc.freeNslots = 0 ∨ ¬s.gc.Lost
  | .nobj n => n = 0 ∨ ¬s.gc.Lost ∧
      (n ≤ s.gc.freeNslots ∨ e.p ≠ 0 ∧ n ≤ s.gc.freeNslots + s.gc.perPage)

/-! ## The invariant

The free slots are in pages that have been obtained, or a slot has been taken at `NULL`. -/

/-- The free slots begin at the next one, and their pages have been obtained. -/
structure System.Settled (s : System) : Prop where
  start : kSlotsStart ≤ s.gc.nextSlot
  room : s.gc.nextSlot + s.gc.freeNslots * s.gc.slotSize ≤ s.limit
  obtained : ∀ x, s.gc.nextSlot ≤ x → x < s.limit → ∃ p ∈ s.pages, x ∈ pageAt p
  below : ∀ r ∈ s.results, ∀ x ∈ r.range s.gc.slotSize, x < s.gc.nextSlot

/-- `gc_alloc_obj` has returned `NULL`, and taken a slot at `NULL`. -/
structure System.Astray (s : System) : Prop where
  next_eq : s.gc.nextSlot = s.gc.slotSize
  free_eq : s.gc.freeNslots = s.gc.perPage - 1
  below : ∀ r ∈ s.results, ∀ x ∈ r.range s.gc.slotSize, x < s.limit

structure System.Placed (s : System) : Prop where
  size_pos : 0 < s.gc.slotSize
  size_le : s.gc.slotSize ≤ kPgSize
  start_le : kSlotsStart ≤ s.limit
  limit_le : s.limit ≤ kSlotsStart + kSlotsSize
  pages_ge : ∀ p ∈ s.pages, kSlotsStart ≤ p
  place : s.Settled ∨ s.Astray

variable {s s' : System} {e : Event} {g : Gc} {r : Result} {n p limit c x : ℕ}

theorem Result.range_null (h : r.ptr = 0) (size : ℕ) : r.range size = ∅ := if_pos h

theorem Result.mem_range {size : ℕ} :
    x ∈ r.range size ↔ r.ptr ≠ 0 ∧ r.ptr ≤ x ∧ x < r.ptr + r.n * size := by
  unfold Result.range
  split_ifs with h
  · exact iff_of_false (Set.notMem_empty x) fun hx => hx.1 h
  · exact (and_iff_right h).symm

/-- The first address of a range. -/
theorem Result.ptr_mem {size : ℕ} (hptr : r.ptr ≠ 0) (hn : 0 < r.n) (hsize : 0 < size) :
    r.ptr ∈ r.range size :=
  mem_range.mpr ⟨hptr, Nat.le_refl _, Nat.lt_add_of_pos_right (Nat.mul_pos hn hsize)⟩

theorem perPage_pos (hpos : 0 < g.slotSize) (hle : g.slotSize ≤ kPgSize) : 0 < g.perPage :=
  Nat.div_pos hle hpos

/-- With counts that are variables: the kernel would compare those of two records bit by bit. -/
theorem perPage_mk (size free next : ℕ) : (Gc.mk size free next).perPage = kPgSize / size := rfl

theorem perPage_mul_le (g : Gc) : g.perPage * g.slotSize ≤ kPgSize := Nat.div_mul_le_self _ _

theorem perPage_le (g : Gc) : g.perPage ≤ kPgSize := Nat.div_le_self _ _

namespace System

theorem Settled.not_lost (h : s.Settled) : ¬s.gc.Lost := Nat.not_lt.mpr h.start

theorem Astray.lost (h : s.Astray) (hle : s.gc.slotSize ≤ kPgSize) : s.gc.Lost := by
  unfold Gc.Lost
  rw [h.next_eq]
  exact Nat.lt_of_le_of_lt hle (by decide)

/-- `NULL` is no slot. -/
theorem Placed.next_ne (h : s.Placed) : s.gc.nextSlot ≠ 0 := by
  have hpos := h.size_pos
  rcases h.place with h | h
  · have hstart := h.start
    unfold kSlotsStart at hstart
    omega
  · rw [h.next_eq]
    omega

/-- There are no more free slots than bytes in the slots region. -/
theorem Placed.free_lt (h : s.Placed) : s.gc.freeNslots + kPgSize < 2 ^ 31 := by
  have hlimit := h.limit_le
  unfold kSlotsStart kSlotsSize at hlimit
  rcases h.place with hset | hastray
  · have hroom := hset.room
    have hstart := hset.start
    have hfree := Nat.le_mul_of_pos_right s.gc.freeNslots h.size_pos
    unfold kSlotsStart at hstart
    unfold kPgSize
    omega
  · have hle := perPage_le s.gc
    rw [hastray.free_eq]
    unfold kPgSize at *
    omega

/-! ## Slots taken

Slots come from the page at hand, and from new pages behind it. -/

/-- The next `n` slots are taken, with the result `r`. -/
def take (s : System) (n : ℕ) (r : Result) : System :=
  { s with
    gc := { s.gc with
      nextSlot := (s.gc.nextSlot + n * s.gc.slotSize) % 2 ^ 32
      freeNslots := (s.gc.freeNslots + 2 ^ 32 - n) % 2 ^ 32 }
    results := r :: s.results }

/-- A result that was met, or is `NULL`, is as it should be if its range is. -/
theorem sound_cons (hs : s.Sound) {gc : Gc} {limit : ℕ} {pages : List ℕ}
    (hsize : gc.slotSize = s.gc.slotSize) (hpages : s.pages ⊆ pages)
    (hinside : ∀ x ∈ r.range s.gc.slotSize, ∃ p ∈ pages, x ∈ pageAt p)
    (hdisjoint : ∀ b ∈ s.results, ∀ x ∈ r.range s.gc.slotSize, x ∉ b.range s.gc.slotSize)
    (hcount : r.n ≤ r.avail s.gc.perPage) (hnull : ¬r.Met s.gc.perPage → r.ptr = 0) :
    Sound ⟨gc, limit, pages, r :: s.results⟩ := by
  have hper : gc.perPage = s.gc.perPage := by rw [Gc.perPage, Gc.perPage, hsize]
  refine ⟨fun b hb x hx => ?_, List.pairwise_cons.mpr ⟨fun b hb => ?_, ?_⟩, fun b hb => ?_,
    fun b hb => ?_⟩
  · dsimp only at hx
    rw [hsize] at hx
    rcases List.mem_cons.mp hb with rfl | hb
    · exact hinside x hx
    · obtain ⟨p, hp, hxp⟩ := hs.inside b hb x hx
      exact ⟨p, hpages hp, hxp⟩
  · dsimp only
    rw [hsize]
    exact Set.disjoint_left.mpr (hdisjoint b hb)
  · dsimp only
    rw [hsize]
    exact hs.disjoint
  · dsimp only
    rw [hper]
    rcases List.mem_cons.mp hb with rfl | hb
    · exact hcount
    · exact hs.count b hb
  · dsimp only
    rw [hper]
    rcases List.mem_cons.mp hb with rfl | hb
    · exact hnull
    · exact hs.null b hb

/-- **Free slots are taken.** -/
theorem take_spec (hs : s.Sound) (hpl : s.Placed) (hset : s.Settled) (hn : n ≤ s.gc.freeNslots)
    (hr : r.n = n) (hptr : r.ptr = s.gc.nextSlot) (hcount : r.n ≤ r.avail s.gc.perPage)
    (hmet : r.Met s.gc.perPage) : (s.take n r).Sound ∧ (s.take n r).Placed := by
  have hfree := hpl.free_lt
  have hlimit := hpl.limit_le
  have htaken : n * s.gc.slotSize + (s.gc.freeNslots - n) * s.gc.slotSize =
      s.gc.freeNslots * s.gc.slotSize := by
    rw [← Nat.add_mul, Nat.add_sub_cancel' hn]
  have hroom := hset.room
  have hnext : (s.gc.nextSlot + n * s.gc.slotSize) % 2 ^ 32 =
      s.gc.nextSlot + n * s.gc.slotSize := by
    unfold kSlotsStart kSlotsSize at hlimit
    exact Nat.mod_eq_of_lt (by omega)
  have hleft : (s.gc.freeNslots + 2 ^ 32 - n) % 2 ^ 32 = s.gc.freeNslots - n := by
    unfold kPgSize at hfree
    omega
  have hrange {x : ℕ} (hx : x ∈ r.range s.gc.slotSize) :
      s.gc.nextSlot ≤ x ∧ x < s.gc.nextSlot + n * s.gc.slotSize := by
    have := (Result.mem_range.mp hx).2
    rwa [hptr, hr] at this
  rw [take, hnext, hleft]
  constructor
  · refine sound_cons hs rfl (List.Subset.refl _) (fun x hx => ?_) (fun b hb x hx hxb => ?_) hcount
      fun h => absurd hmet h
    · obtain ⟨hlow, hhigh⟩ := hrange hx
      exact hset.obtained x hlow (by omega)
    · exact absurd (hset.below b hb x hxb) (Nat.not_lt.mpr (hrange hx).1)
  · refine ⟨hpl.size_pos, hpl.size_le, hpl.start_le, hpl.limit_le, hpl.pages_ge, .inl
      ⟨hset.start.trans (Nat.le_add_right _ _), ?_, fun x hlow => hset.obtained x ?_,
        fun b hb x hx => ?_⟩⟩
    · dsimp only
      omega
    · exact (Nat.le_add_right _ _).trans hlow
    · dsimp only
      rcases List.mem_cons.mp hb with rfl | hb
      · exact (hrange hx).2
      · exact (hset.below b hb x hx).trans_le (Nat.le_add_right _ _)

/-- A new page, at which the slots go on or up to which they run. -/
def expand (s : System) (next p limit : ℕ) : System :=
  ⟨⟨s.gc.slotSize, s.gc.freeNslots + s.gc.perPage, next⟩, limit, p :: s.pages, s.results⟩

theorem expand_sound (hs : s.Sound) (next : ℕ) : (s.expand next p limit).Sound :=
  ⟨fun r hr x hx => (hs.inside r hr x hx).imp fun _ h => ⟨List.mem_cons_of_mem _ h.1, h.2⟩,
    hs.disjoint, hs.count, hs.null⟩

/-- The page obtained is the one at the end of the region. -/
theorem expand_placed (hpl : s.Placed) (he : Expands s.limit p limit) (hp : p ≠ 0)
    (hlimit : limit ≤ kSlotsStart + kSlotsSize) {next : ℕ}
    (hset : (s.expand next p limit).Settled) : (s.expand next p limit).Placed := by
  obtain ⟨rfl, rfl⟩ := he.eq_limit hp
  refine ⟨hpl.size_pos, hpl.size_le, hpl.start_le.trans (Nat.le_add_right _ _), hlimit,
    fun q hq => ?_, .inl hset⟩
  rcases List.mem_cons.mp hq with rfl | hq
  · exact hpl.start_le
  · exact hpl.pages_ge q hq

theorem expand_run_on (he : Expands s.limit p limit) (hp : p ≠ 0) (hset : s.Settled) :
    (s.expand s.gc.nextSlot p limit).Settled := by
  obtain ⟨rfl, rfl⟩ := he.eq_limit hp
  have hroom := hset.room
  have hpage := perPage_mul_le s.gc
  refine ⟨hset.start, ?_, fun x hlow hhigh => ?_, hset.below⟩
  · change s.gc.nextSlot + (s.gc.freeNslots + s.gc.perPage) * s.gc.slotSize ≤ s.limit + kPgSize
    rw [Nat.add_mul]
    omega
  · by_cases hx : x < s.limit
    · obtain ⟨q, hq, hxq⟩ := hset.obtained x hlow hx
      exact ⟨q, List.mem_cons_of_mem _ hq, hxq⟩
    · exact ⟨s.limit, List.mem_cons_self, Nat.not_lt.mp hx, hhigh⟩

theorem expand_go_on (hpl : s.Placed) (he : Expands s.limit p limit) (hp : p ≠ 0)
    (hfree : s.gc.freeNslots = 0) : (s.expand p p limit).Settled := by
  obtain ⟨rfl, rfl⟩ := he.eq_limit hp
  have hpage := perPage_mul_le s.gc
  refine ⟨hpl.start_le, ?_, fun x hlow hhigh => ⟨s.limit, List.mem_cons_self, hlow, hhigh⟩,
    fun r hr x hx => ?_⟩
  · change s.limit + (s.gc.freeNslots + s.gc.perPage) * s.gc.slotSize ≤ s.limit + kPgSize
    rw [hfree, Nat.zero_add]
    omega
  · change x < s.limit
    rcases hpl.place with hset | hastray
    · have hbelow := hset.below r hr x hx
      have hroom := hset.room
      omega
    · exact hastray.below r hr x hx

/-! ## One call -/

/-- No page is wanted. -/
theorem after_of_free (hfree : e.call.count ≤ s.gc.freeNslots) : s.after e limit =
    s.take e.call.count ⟨e.call.count, s.gc.nextSlot, s.gc.freeNslots, 0⟩ := by
  obtain ⟨_ | n, p⟩ := e
  · have hnot : ¬s.gc.freeNslots < 1 := Nat.not_lt.mpr hfree
    rw [after, if_neg (by exact hnot)]
    change System.mk (gcAllocObj p s.gc).2 _ _ (⟨1, (gcAllocObj p s.gc).1, _, 0⟩ :: _) = _
    rw [gcAllocObj, if_neg hnot, take]
    simp only [Call.count, Nat.one_mul]
  · have hnot : ¬s.gc.freeNslots < n := Nat.not_lt.mpr hfree
    rw [after, if_neg (by exact hnot)]
    change System.mk (gcAllocNobj n s.gc).2 _ _ (⟨n, (gcAllocNobj n s.gc).1, _, 0⟩ :: _) = _
    rw [gcAllocNobj, if_neg hnot]
    rfl

/-- A page is wanted by `gc_alloc_obj`. -/
theorem after_obj_of_full (hfull : s.gc.freeNslots < 1) : s.after ⟨.obj, p⟩ limit =
    ⟨(gcAllocObj p s.gc).2, limit, if p = 0 then s.pages else p :: s.pages,
      ⟨1, (gcAllocObj p s.gc).1, s.gc.freeNslots, p⟩ :: s.results⟩ := if_pos hfull

/-- A page is wanted by `gc_alloc_nobj`. -/
theorem after_nobj_of_full (hfull : s.gc.freeNslots < n) : s.after ⟨.nobj n, p⟩ limit =
    ⟨(gcAllocNobj n s.gc).2, limit, if p = 0 then s.pages else p :: s.pages,
      ⟨n, (gcAllocNobj n s.gc).1, s.gc.freeNslots, p⟩ :: s.results⟩ := if_pos hfull

/-- The slots of a new page are counted. -/
theorem free_add_perPage (hpl : s.Placed) :
    (s.gc.freeNslots + kPgSize / s.gc.slotSize) % 2 ^ 32 = s.gc.freeNslots + s.gc.perPage := by
  have hfree := hpl.free_lt
  have hper := perPage_le s.gc
  unfold Gc.perPage at *
  exact Nat.mod_eq_of_lt (by omega)

theorem after_of_obj (hpl : s.Placed) (hfree : s.gc.freeNslots = 0) (hp : p ≠ 0) :
    s.after ⟨.obj, p⟩ limit = (s.expand p p limit).take 1 ⟨1, p, 0, p⟩ := by
  have hfull : s.gc.freeNslots < 1 := by omega
  rw [after_obj_of_full hfull, gcAllocObj, if_pos hfull, take, free_add_perPage hpl, if_neg hp,
    hfree]
  simp only [expand, Nat.one_mul, hfree]

theorem after_of_obj_null (hpl : s.Placed) (hfree : s.gc.freeNslots = 0) :
    s.after ⟨.obj, 0⟩ limit = ⟨⟨s.gc.slotSize, s.gc.perPage - 1, s.gc.slotSize⟩, limit, s.pages,
      ⟨1, 0, 0, 0⟩ :: s.results⟩ := by
  have hfull : s.gc.freeNslots < 1 := by omega
  have hsize := hpl.size_le
  have hper := perPage_pos hpl.size_pos hsize
  have hle := perPage_le s.gc
  unfold kPgSize at hsize hle
  rw [after_obj_of_full hfull, gcAllocObj, if_pos hfull, free_add_perPage hpl, hfree]
  have hleft : (0 + s.gc.perPage + 2 ^ 32 - 1) % 2 ^ 32 = s.gc.perPage - 1 := by omega
  have hnext : (0 + s.gc.slotSize) % 2 ^ 32 = s.gc.slotSize := by omega
  dsimp only
  rw [hleft, hnext]
  rfl

theorem after_of_nobj (hpl : s.Placed) (hfree : s.gc.freeNslots < n) (hp : p ≠ 0) :
    s.after ⟨.nobj n, p⟩ limit = (s.expand s.gc.nextSlot p limit).take n
      ⟨n, s.gc.nextSlot, s.gc.freeNslots, p⟩ := by
  rw [after_nobj_of_full hfree, gcAllocNobj, if_pos hfree, take, free_add_perPage hpl, if_neg hp]
  rfl

/-- What `gc_alloc_nobj` returned when no slots were free for it. -/
theorem result_of_nobj (hfree : s.gc.freeNslots < n) :
    ⟨n, s.gc.nextSlot, s.gc.freeNslots, p⟩ ∈ (s.after ⟨.nobj n, p⟩ limit).results := by
  rw [after_nobj_of_full hfree, gcAllocNobj, if_pos hfree]
  exact List.mem_cons_self

/-- A slot that is none of the slots region. -/
theorem not_sound_take (hlost : s.gc.Lost) (hne : s.gc.nextSlot ≠ 0) (hpos : 0 < s.gc.slotSize)
    (hpages : ∀ p ∈ s.pages, kSlotsStart ≤ p) (hptr : r.ptr = s.gc.nextSlot) (hn : 0 < r.n) :
    ¬(s.take n r).Sound := by
  obtain ⟨next, hnext⟩ : ∃ next, (s.gc.nextSlot + n * s.gc.slotSize) % 2 ^ 32 = next := ⟨_, rfl⟩
  obtain ⟨free, hfree⟩ : ∃ free, (s.gc.freeNslots + 2 ^ 32 - n) % 2 ^ 32 = free := ⟨_, rfl⟩
  rw [take, hnext, hfree]
  intro hs
  have hmem : r.ptr ∈ r.range s.gc.slotSize := Result.ptr_mem (by rwa [hptr]) hn hpos
  obtain ⟨p, hp, hlow, -⟩ := hs.inside r List.mem_cons_self _ hmem
  rw [hptr] at hlow
  exact Nat.lt_irrefl _ (((hpages p hp).trans hlow).trans_lt hlost)

/-- Nothing is taken by a request for no slots. -/
theorem take_zero (hs : s.Sound) (hpl : s.Placed) (hastray : s.Astray) :
    (s.take 0 ⟨0, s.gc.nextSlot, s.gc.freeNslots, 0⟩).Sound ∧
      (s.take 0 ⟨0, s.gc.nextSlot, s.gc.freeNslots, 0⟩).Placed := by
  have hfree := hpl.free_lt
  have hsize := hpl.size_le
  have hempty (x : ℕ) :
      x ∉ (⟨0, s.gc.nextSlot, s.gc.freeNslots, 0⟩ : Result).range s.gc.slotSize := by
    rw [Result.mem_range, Nat.zero_mul]
    exact fun h => Nat.not_lt.mpr h.2.1 h.2.2
  have hnext : (s.gc.nextSlot + 0 * s.gc.slotSize) % 2 ^ 32 = s.gc.slotSize := by
    have hle : kPgSize < 2 ^ 32 := by decide
    rw [hastray.next_eq, Nat.zero_mul, Nat.add_zero]
    exact Nat.mod_eq_of_lt (by omega)
  have hleft : (s.gc.freeNslots + 2 ^ 32 - 0) % 2 ^ 32 = s.gc.perPage - 1 := by
    rw [← hastray.free_eq]
    omega
  rw [take, hnext, hleft]
  refine ⟨sound_cons hs rfl (List.Subset.refl _) (fun x hx => absurd hx (hempty x))
    (fun b _ x hx => absurd hx (hempty x)) (Nat.zero_le _) fun h => absurd (.inl (Nat.zero_le _)) h,
    ⟨hpl.size_pos, hpl.size_le, hpl.start_le, hpl.limit_le, hpl.pages_ge,
      .inr ⟨rfl, rfl, fun b hb x hx => ?_⟩⟩⟩
  rcases List.mem_cons.mp hb with rfl | hb
  · exact absurd hx (hempty x)
  · exact hastray.below b hb x hx

/-- Where enough slots are counted as free, they are if the next one is a slot. -/
theorem served_of_free (hs : s.Sound) (hpl : s.Placed) (hfree : e.call.count ≤ s.gc.freeNslots) :
    (e.Served s ↔ (s.after e limit).Sound) ∧
      ((s.after e limit).Sound → (s.after e limit).Placed) := by
  rw [after_of_free hfree]
  rcases hpl.place with hset | hastray
  · obtain ⟨hsound, hplaced⟩ := take_spec
      (r := ⟨e.call.count, s.gc.nextSlot, s.gc.freeNslots, 0⟩) hs hpl hset hfree rfl rfl
      (hfree.trans_eq (if_neg (Nat.not_lt.mpr hfree)).symm) (.inl hfree)
    refine ⟨iff_of_true ?_ hsound, fun _ => hplaced⟩
    obtain ⟨_ | n, p⟩ := e
    · exact .inr hset.not_lost
    · exact .inr ⟨hset.not_lost, .inl hfree⟩
  · have hlost := hastray.lost hpl.size_le
    by_cases hn : e.call.count = 0
    · obtain ⟨hsound, hplaced⟩ := take_zero hs hpl hastray
      rw [hn]
      refine ⟨iff_of_true ?_ hsound, fun _ => hplaced⟩
      obtain ⟨_ | n, p⟩ := e
      · exact absurd hn Nat.one_ne_zero
      · exact .inl hn
    · have hnot : ¬(s.take e.call.count ⟨e.call.count, s.gc.nextSlot, s.gc.freeNslots, 0⟩).Sound :=
        not_sound_take hlost hpl.next_ne hpl.size_pos hpl.pages_ge rfl (Nat.pos_of_ne_zero hn)
      refine ⟨iff_of_false (fun h => ?_) hnot, fun h => absurd h hnot⟩
      obtain ⟨_ | n, p⟩ := e
      · rcases h with hzero | hnl
        · exact absurd hfree (by rw [hzero]; exact Nat.not_succ_le_zero 0)
        · exact hnl hlost
      · rcases h with hzero | ⟨hnl, -⟩
        · exact hn hzero
        · exact hnl hlost

/-- `gc_alloc_obj` goes on at the page that it gets, and returns `NULL` when it gets none. -/
theorem served_of_obj (hs : s.Sound) (hpl : s.Placed) (he : Expands s.limit p limit)
    (hlimit : limit ≤ kSlotsStart + kSlotsSize) (hfree : s.gc.freeNslots = 0) :
    (s.after ⟨.obj, p⟩ limit).Sound ∧ (s.after ⟨.obj, p⟩ limit).Placed := by
  have hper := perPage_pos hpl.size_pos hpl.size_le
  by_cases hp : p = 0
  · subst hp
    rw [after_of_obj_null hpl hfree]
    have hempty (x : ℕ) : x ∉ (⟨1, 0, 0, 0⟩ : Result).range s.gc.slotSize := by
      rw [Result.range_null rfl]
      exact Set.notMem_empty x
    refine ⟨sound_cons hs rfl (List.Subset.refl _) (fun x hx => absurd hx (hempty x))
      (fun b _ x hx => absurd hx (hempty x)) ?_ fun _ => rfl,
      ⟨hpl.size_pos, hpl.size_le, hpl.start_le.trans he.le, hlimit, hpl.pages_ge,
        .inr ⟨rfl, rfl, fun b hb x hx => ?_⟩⟩⟩
    · exact hper.trans_eq (Nat.zero_add _).symm
    · rcases List.mem_cons.mp hb with rfl | hb
      · exact absurd hx (hempty x)
      · refine Nat.lt_of_lt_of_le ?_ he.le
        rcases hpl.place with hset | hastray
        · exact (hset.below b hb x hx).trans_le ((Nat.le_add_right _ _).trans hset.room)
        · exact hastray.below b hb x hx
  · rw [after_of_obj hpl hfree hp]
    have hset := expand_go_on hpl he hp hfree
    have hone : 1 ≤ 0 + s.gc.perPage := hper.trans_eq (Nat.zero_add _).symm
    exact take_spec (expand_sound hs p) (expand_placed hpl he hp hlimit hset) hset
      (by change 1 ≤ s.gc.freeNslots + s.gc.perPage; rw [hfree]; exact hone) rfl rfl hone
      (.inr ⟨hp, hone⟩)

/-- `gc_alloc_nobj` runs on into the page that it gets, and does not look whether it gets one. -/
theorem served_of_nobj (hs : s.Sound) (hpl : s.Placed) (he : Expands s.limit p limit)
    (hlimit : limit ≤ kSlotsStart + kSlotsSize) (hfree : s.gc.freeNslots < n) :
    (Event.Served s ⟨.nobj n, p⟩ ↔ (s.after ⟨.nobj n, p⟩ limit).Sound) ∧
      ((s.after ⟨.nobj n, p⟩ limit).Sound → (s.after ⟨.nobj n, p⟩ limit).Placed) := by
  have hn : 0 < n := Nat.zero_lt_of_lt hfree
  by_cases hgrant : p ≠ 0 ∧ n ≤ s.gc.freeNslots + s.gc.perPage
  · obtain ⟨hp, hle⟩ := hgrant
    rw [after_of_nobj hpl hfree hp]
    rcases hpl.place with hset | hastray
    · have hset' := expand_run_on he hp hset
      obtain ⟨hsound, hplaced⟩ := take_spec (n := n) (r := ⟨n, s.gc.nextSlot, s.gc.freeNslots, p⟩)
        (expand_sound hs _) (expand_placed hpl he hp hlimit hset') hset' hle rfl rfl
        (hle.trans_eq (if_pos hfree).symm) (.inr ⟨hp, hle⟩)
      exact ⟨iff_of_true (.inr ⟨hset.not_lost, .inr ⟨hp, hle⟩⟩) hsound, fun _ => hplaced⟩
    · have hlost := hastray.lost hpl.size_le
      obtain ⟨rfl, -⟩ := he.eq_limit hp
      have hnot : ¬((s.expand s.gc.nextSlot s.limit limit).take n
          ⟨n, s.gc.nextSlot, s.gc.freeNslots, s.limit⟩).Sound :=
        not_sound_take (by unfold Gc.Lost; exact hlost) hpl.next_ne hpl.size_pos
          (List.forall_mem_cons.mpr ⟨hpl.start_le, hpl.pages_ge⟩) rfl hn
      refine ⟨iff_of_false (fun h => ?_) hnot, fun h => absurd h hnot⟩
      exact h.elim (Nat.ne_of_gt hn) fun h => h.1 hlost
  · have hmet : ¬(⟨n, s.gc.nextSlot, s.gc.freeNslots, p⟩ : Result).Met s.gc.perPage :=
      not_or.mpr ⟨Nat.not_le.mpr hfree, hgrant⟩
    have hsize : (s.after ⟨.nobj n, p⟩ limit).gc.perPage = s.gc.perPage := by
      rw [after_nobj_of_full hfree, gcAllocNobj, if_pos hfree]
      exact perPage_mk _ _ _
    have hnot : ¬(s.after ⟨.nobj n, p⟩ limit).Sound := fun h =>
      hpl.next_ne (h.null _ (result_of_nobj hfree) (by rw [hsize]; exact hmet))
    refine ⟨iff_of_false (fun h => ?_) hnot, fun h => absurd h hnot⟩
    rcases h with hzero | ⟨-, hle | hle⟩
    · exact Nat.ne_of_gt hn hzero
    · exact Nat.not_le.mpr hfree hle
    · exact hgrant hle

/-- **One call** does what it should just when it is served. -/
theorem served_iff (hs : s.Sound) (hpl : s.Placed) (hst : Step s e s') :
    (e.Served s ↔ s'.Sound) ∧ (s'.Sound → s'.Placed) := by
  obtain ⟨limit, he, hlimit, rfl⟩ : ∃ limit, Expands s.limit e.p limit ∧
      limit ≤ kSlotsStart + kSlotsSize ∧ s' = s.after e limit := by
    cases hst with
    | call he hlimit _ => exact ⟨_, he, hlimit, rfl⟩
  by_cases hfree : e.call.count ≤ s.gc.freeNslots
  · exact served_of_free hs hpl hfree
  · obtain ⟨_ | n, p⟩ := e
    · have hzero : s.gc.freeNslots = 0 := Nat.lt_one_iff.mp (Nat.not_le.mp hfree)
      obtain ⟨hsound, hplaced⟩ := served_of_obj hs hpl he hlimit hzero
      exact ⟨iff_of_true (.inl hzero) hsound, fun _ => hplaced⟩
    · exact served_of_nobj hs hpl he hlimit (Nat.not_le.mp hfree)

end System

/-! ## Runs -/

/-- `kscm_init_gc` counts the slots of the first page. -/
theorem initial_spec {slotSize : ℕ} (hpos : 0 < slotSize) (hle : slotSize ≤ kPgSize) :
    (initial slotSize).Sound ∧ (initial slotSize).Placed := by
  have hroom : kPgSize / slotSize * slotSize ≤ kPgSize := Nat.div_mul_le_self _ _
  have hlimit : kSlotsStart + kPgSize ≤ kSlotsStart + kSlotsSize := by decide
  refine ⟨⟨nofun, .nil, nofun, nofun⟩, ⟨hpos, hle, Nat.le_add_right _ _, hlimit, fun p hp => ?_,
    .inl ⟨Nat.le_refl _, Nat.add_le_add_left hroom _, fun x hlow hhigh => ?_, nofun⟩⟩⟩
  · rw [List.mem_singleton.mp hp]
  · exact ⟨kSlotsStart, List.mem_singleton_self _, hlow, hhigh⟩

/-- **The slots of `mm/gc.c`**: they are as they should be in just those runs in which every call is
served. -/
theorem sound_of_served_calls {slotSize : ℕ} {events : List Event} (hpos : 0 < slotSize)
    (hle : slotSize ≤ kPgSize) :
    Runs (Guarded (fun s e => e.Served s) Step) (initial slotSize) events s ↔
      Runs (fun s e (s' : System) => Step s e s' ∧ s'.Sound) (initial slotSize) events s := by
  refine Runs.guard_exact (I := fun s : System => s.Sound ∧ s.Placed) ?_ ?_ (initial_spec hpos hle)
  · intro s e s' hI hst
    exact (System.served_iff hI.1 hI.2 hst).1
  · intro s e s' hI hst hs'
    exact ⟨hs', (System.served_iff hI.1 hI.2 hst).2 hs'⟩

/-- Slots of 16 bytes: a page of them, and one more. -/
theorem sound_of_served_calls_page :
    Runs (fun s e (s' : System) => Step s e s' ∧ s'.Sound) (initial 16)
      [⟨.nobj 256, 0⟩, ⟨.obj, kSlotsStart + kPgSize⟩]
    (((initial 16).after ⟨.nobj 256, 0⟩ (kSlotsStart + kPgSize)).after ⟨.obj, kSlotsStart + kPgSize⟩
      (kSlotsStart + kPgSize + kPgSize)) :=
  (sound_of_served_calls (by decide) (by decide)).mp
    (.cons
      ⟨.inr ⟨Nat.lt_irrefl kSlotsStart, .inl (by decide)⟩, .call .refused (by decide) (by decide)⟩
      (.single ⟨.inl rfl, .call .granted (by decide) (by decide)⟩))

/-- No page is obtained for 257 slots of 16 bytes. -/
theorem not_sound_of_served_calls : ¬∀ (slotSize : ℕ) (events : List Event) (s : System),
    0 < slotSize → slotSize ≤ kPgSize → Runs Step (initial slotSize) events s → s.Sound := by
  intro h
  have hst : Step (initial 16) ⟨.nobj 257, 0⟩ _ := .call .refused (by decide) (by decide)
  obtain ⟨hs, hpl⟩ : (initial 16).Sound ∧ (initial 16).Placed :=
    initial_spec (by decide) (by decide)
  have hserved := (System.served_iff hs hpl hst).1.mpr
    (h 16 _ _ (by decide) (by decide) (.single hst))
  rcases hserved with hzero | ⟨-, hle | ⟨hp, -⟩⟩
  · exact absurd hzero (by decide)
  · exact absurd hle (by decide)
  · exact hp rfl

end SchemeOs.Slots
