import SchemeOs.Collector.FreeRegions

/-!
# Collector/Generations — the slots that `gc_alloc_obj` returns

`gc_alloc_obj` takes a slot of the newest generation, and makes a new generation when its region is
full.  It does not look whether that succeeded: if not, the slot behind the region is returned, and
the test for a full region, which is one for equality, does not find it full any more.
-/

namespace SchemeOs.Collector.Generations

open Memory

/-! ## The system -/

/-- The heap, the regions of the generations from the oldest to the newest, and the slots that have
been returned. -/
structure Objects where
  heap : Heap
  made : List ℕ
  returned : List ℕ

/-- A call, in which `malloc` would return `t` and `expand_region` `p`. -/
structure Call where
  t : ℕ
  p : ℕ

/-- The regions after a call of `_new_generation` that returned `reg`. -/
def addRegion (made : List ℕ) (reg : ℕ) : List ℕ := if reg = 0 then made else made ++ [reg]

/-- `gc_alloc_obj` returns the slot `x`. -/
def Objects.take (s : Objects) (x : ℕ) : List ℕ := if x = 0 then s.returned else x :: s.returned

/-- The regions after `gc_alloc_obj`. -/
def Objects.madeAfter (s : Objects) (c : Call) (limit : ℕ) : List ℕ :=
  if regionFullP s.heap s.heap.coordinator then
    addRegion s.made (newGeneration c.t c.p limit s.heap).1
  else s.made

inductive AllocStep : Objects → Call → Objects → Prop where
  | alloc {s : Objects} {c : Call} {limit : ℕ} : Expands s.heap.limit c.p limit →
      AllocStep s c ⟨(gcAllocObj c.t c.p limit s.heap).2, s.madeAfter c limit,
        s.take (gcAllocObj c.t c.p limit s.heap).1⟩

/-- The heap in which `scheme_init_gc` makes the first generation. -/
def clearedHeap (h : Heap) : Heap :=
  { h with
    regions := 0, natural := 0, coordinator := 0, freeRegions := 0
    limit := kSlotsStart + kPgSize }

/-- What `scheme_init_gc` leaves. -/
inductive Initial : Objects → Prop where
  | init {h : Heap} {t p limit : ℕ} : Expands (clearedHeap h).limit p limit →
      Initial ⟨schemeInitGc t p limit (clearedHeap h),
        addRegion [] (newGeneration t p limit (clearedHeap h)).1, []⟩

/-- A slot of a region, behind its header. -/
structure SlotOf (reg x : ℕ) : Prop where
  low : slots reg ≤ x
  high : x + objSize ≤ reg + defaultRegionSize
  aligned : objSize ∣ x - slots reg

/-- The slots are slots of the regions, and none has been returned twice; the ring of the regions
has the numbers of the generations one after the other. -/
structure Objects.Sound (s : Objects) : Prop where
  slot : ∀ x ∈ s.returned, ∃ r ∈ s.made, SlotOf r x
  nodup : s.returned.Nodup
  ring : s.made ≠ [] → Lasso s.heap.next s.made s.heap.natural ∧
    s.made.head? = some s.heap.natural ∧ s.made.getLast? = some s.heap.coordinator
  numbers : s.made.IsChain fun a b => s.heap.genNumb b = s.heap.genNumb a + 1

/-- Whether a call does what it should: a full region is followed by a new one, whose number a
`short` holds.  Without any region the word of `NULL` that is taken for `top` can only be 0. -/
def Call.Served (s : Objects) (c : Call) : Prop :=
  if regionFullP s.heap s.heap.coordinator then
    c.t ≠ 0 ∧ c.p ≠ 0 ∧ (s.heap.coordinator ≠ 0 → s.heap.genNumb s.heap.coordinator < 2 ^ 15 - 1)
  else s.heap.coordinator ≠ 0 ∨ s.heap.top 0 = 0

instance (s : Objects) (c : Call) : Decidable (c.Served s) := by
  unfold Call.Served
  infer_instance

/-- The invariant: where the regions and their `top` are. -/
structure Objects.Placed (s : Objects) : Prop where
  limit_pos : 0 < s.heap.limit
  limit_page : kPgSize ∣ s.heap.limit
  bounds : ∀ r ∈ s.made, 0 < r ∧ r < s.heap.limit ∧ kPgSize ∣ r ∧ r ≤ s.heap.coordinator
  free_eq : s.heap.freeRegions = 0
  regions_eq : s.heap.regions = s.heap.natural
  coordinator_mem : s.heap.coordinator = 0 ∧ s.made = [] ∨ s.heap.coordinator ∈ s.made
  top_slot : ∀ r ∈ s.made, slots r ≤ s.heap.top r ∧ s.heap.top r ≤ r + defaultRegionSize ∧
    objSize ∣ s.heap.top r - slots r
  below_top : ∀ x ∈ s.returned, ∃ r ∈ s.made, slots r ≤ x ∧ x + objSize ≤ s.heap.top r ∧
    objSize ∣ x - slots r
  short : ∀ r ∈ s.made, -2 ^ 15 ≤ s.heap.genNumb r ∧ s.heap.genNumb r < 2 ^ 15

variable {s s' : Objects} {c : Call} {h : Heap} {r t p limit x : ℕ}

/-! ## New generations

A new generation has one region, which is linked into the ring of the regions. -/

theorem newGeneration_none (limit : ℕ) (hfree : h.freeRegions = 0) (hnone : t = 0 ∨ p = 0) :
    ∃ l, newGeneration t p limit h = (0, { h with limit := l }) ∧ (l = h.limit ∨ l = limit) := by
  unfold newGeneration
  by_cases ht : t = 0
  · rw [if_pos ht]
    exact ⟨h.limit, rfl, .inl rfl⟩
  · have hp := hnone.resolve_left ht
    rw [if_neg ht, allocRegion, if_pos hfree, if_pos hp]
    exact ⟨limit, rfl, .inr rfl⟩

theorem newGeneration_some (hfree : h.freeRegions = 0) (ht : t ≠ 0) (hp : p ≠ 0) :
    newGeneration t p limit h =
      (p, (({ h with limit := limit } : Heap).linkRegion p).initRegion p t h.newGen) := by
  rw [newGeneration, if_neg ht, allocRegion, if_pos hfree]
  exact if_neg hp

/-- The links of the new region, in the ring. -/
theorem linkRegion_ring (limit : ℕ) (hs : s.Sound) (hpl : s.Placed) (hp : p ∉ s.made) :
    Lasso (({ s.heap with limit := limit } : Heap).linkRegion p).next (s.made ++ [p])
        (({ s.heap with limit := limit } : Heap).linkRegion p).natural ∧
      (s.made ++ [p]).head? = some (({ s.heap with limit := limit } : Heap).linkRegion p).natural ∧
      (({ s.heap with limit := limit } : Heap).linkRegion p).regions =
        (({ s.heap with limit := limit } : Heap).linkRegion p).natural := by
  unfold Heap.linkRegion
  rcases hpl.coordinator_mem with ⟨hzero, hmade⟩ | hmem
  · rw [if_pos hzero, hmade]
    exact ⟨(Ring.single s.heap.next s.heap.prev p).lasso, rfl, rfl⟩
  · have hne : s.made ≠ [] := List.ne_nil_of_mem hmem
    have hzero : s.heap.coordinator ≠ 0 := Nat.ne_of_gt (hpl.bounds _ hmem).1
    obtain ⟨hlasso, hhead, hlast⟩ := hs.ring hne
    obtain ⟨l, hl⟩ := List.getLast?_eq_some_iff.mp hlast
    have hnext : s.heap.next s.heap.coordinator = s.heap.natural := by
      rw [hl] at hlasso
      have := Lasso.next_eq_head hlasso
      rw [List.nil_append, List.head?_cons, Option.some_inj] at this
      exact this.symm
    rw [if_neg hzero]
    dsimp only
    rw [hpl.regions_eq]
    refine ⟨hlasso.insertLast hhead hmem hnext hp, ?_, rfl⟩
    rw [List.head?_append, hhead]
    rfl

section LinkRegion

variable (h : Heap) (reg : ℕ)

@[simp] theorem linkRegion_genNumb : (h.linkRegion reg).genNumb = h.genNumb := by
  unfold Heap.linkRegion
  split_ifs <;> rfl

@[simp] theorem linkRegion_top : (h.linkRegion reg).top = h.top := by
  unfold Heap.linkRegion
  split_ifs <;> rfl

@[simp] theorem linkRegion_limit : (h.linkRegion reg).limit = h.limit := by
  unfold Heap.linkRegion
  split_ifs <;> rfl

@[simp] theorem linkRegion_freeRegions : (h.linkRegion reg).freeRegions = h.freeRegions := by
  unfold Heap.linkRegion
  split_ifs <;> rfl

end LinkRegion

/-- The objects when a generation has been added. -/
def Objects.grown (s : Objects) (t p limit : ℕ) : Objects :=
  ⟨(newGeneration t p limit s.heap).2, s.made ++ [p], s.returned⟩

/-- Slots of a region end where the region does. -/
theorem slots_le (r : ℕ) : slots r ≤ r + defaultRegionSize := by
  unfold slots defaultRegionSize kPgSize objSize
  omega

/-- The page of a new region is no region yet. -/
theorem page_notMem (hpl : s.Placed) (he : Expands s.heap.limit p limit) (hp : p ≠ 0) :
    p ∉ s.made := fun hmem => by
  obtain ⟨rfl, -⟩ := he.eq_limit hp
  exact Nat.lt_irrefl _ (hpl.bounds _ hmem).2.1

theorem grown_eq (hpl : s.Placed) (ht : t ≠ 0) (hp : p ≠ 0) : s.grown t p limit =
    ⟨(({ s.heap with limit := limit } : Heap).linkRegion p).initRegion p t s.heap.newGen,
      s.made ++ [p], s.returned⟩ := by
  rw [Objects.grown, newGeneration_some hpl.free_eq ht hp]

theorem newGen_short (h : Heap) : -2 ^ 15 ≤ h.newGen ∧ h.newGen < 2 ^ 15 := by
  unfold Heap.newGen toShort
  split_ifs <;> omega

/-- **A new generation** is placed like the others. -/
theorem grown_placed (hs : s.Sound) (hpl : s.Placed) (he : Expands s.heap.limit p limit)
    (ht : t ≠ 0) (hp : p ≠ 0) : (s.grown t p limit).Placed := by
  have hnot := page_notMem hpl he hp
  have hregions := (linkRegion_ring limit hs hpl hnot).2.2
  obtain ⟨heq, hlimit⟩ := he.eq_limit hp
  have hlt : p < limit := by
    rw [heq, hlimit]
    exact Nat.lt_add_of_pos_right (by decide)
  have hold {r : ℕ} (hr : r ∈ s.made) : r ≠ p := fun h => hnot (h ▸ hr)
  rw [grown_eq hpl ht hp]
  refine ⟨?_, ?_, fun r hr => ?_, ?_, hregions, .inr ?_, fun r hr => ?_, fun x hx => ?_,
    fun r hr => ?_⟩
  · simp only [Heap.initRegion, linkRegion_limit]
    omega
  · simp only [Heap.initRegion, linkRegion_limit]
    rw [hlimit]
    exact Nat.dvd_add hpl.limit_page (Nat.dvd_refl _)
  · simp only [Heap.initRegion, linkRegion_limit]
    rcases List.mem_append.mp hr with hr | hr
    · obtain ⟨hpos, hbelow, hdvd, -⟩ := hpl.bounds r hr
      exact ⟨hpos, by omega, hdvd, by omega⟩
    · rw [List.mem_singleton.mp hr, heq]
      exact ⟨hpl.limit_pos, heq ▸ hlt, hpl.limit_page, Nat.le_refl _⟩
  · simp only [Heap.initRegion, linkRegion_freeRegions]
    exact hpl.free_eq
  · exact List.mem_append_right _ (List.mem_singleton_self p)
  · simp only [Heap.initRegion, linkRegion_top]
    rcases List.mem_append.mp hr with hr | hr
    · rw [Function.update_of_ne (hold hr)]
      exact hpl.top_slot r hr
    · rw [List.mem_singleton.mp hr, Function.update_self]
      exact ⟨Nat.le_refl _, slots_le p, by rw [Nat.sub_self]; exact Nat.dvd_zero _⟩
  · simp only [Heap.initRegion, linkRegion_top]
    obtain ⟨r, hr, hbelow⟩ := hpl.below_top x hx
    refine ⟨r, List.mem_append_left _ hr, ?_⟩
    rw [Function.update_of_ne (hold hr)]
    exact hbelow
  · simp only [Heap.initRegion, linkRegion_genNumb]
    rcases List.mem_append.mp hr with hr | hr
    · rw [Function.update_of_ne (hold hr)]
      exact hpl.short r hr
    · rw [List.mem_singleton.mp hr, Function.update_self]
      exact newGen_short s.heap

/-- The number of a new generation is the next one, if a `short` holds it. -/
theorem newGen_eq_iff
    (hshort : -2 ^ 15 ≤ h.genNumb h.coordinator ∧ h.genNumb h.coordinator < 2 ^ 15)
    (hne : h.coordinator ≠ 0) :
    h.newGen = h.genNumb h.coordinator + 1 ↔ h.genNumb h.coordinator < 2 ^ 15 - 1 := by
  rw [Heap.newGen, if_neg hne]
  unfold toShort
  omega

theorem grown_numbers_iff (hs : s.Sound) (hpl : s.Placed) (he : Expands s.heap.limit p limit)
    (ht : t ≠ 0) (hp : p ≠ 0) :
    ((s.grown t p limit).made.IsChain fun a b =>
      (s.grown t p limit).heap.genNumb b = (s.grown t p limit).heap.genNumb a + 1) ↔
      (s.heap.coordinator ≠ 0 → s.heap.genNumb s.heap.coordinator < 2 ^ 15 - 1) := by
  have hnot := page_notMem hpl he hp
  have hold {r : ℕ} (hr : r ∈ s.made) (f : ℕ → ℤ) (g : ℤ) : Function.update f p g r = f r :=
    Function.update_of_ne (fun heq : r = p => hnot (heq ▸ hr)) _ _
  rw [grown_eq hpl ht hp]
  simp only [Heap.initRegion, linkRegion_genNumb]
  have hchain : s.made.IsChain fun a b => Function.update s.heap.genNumb p s.heap.newGen b =
      Function.update s.heap.genNumb p s.heap.newGen a + 1 :=
    hs.numbers.imp_of_mem_imp fun a b ha hb hab => by rw [hold ha, hold hb, hab]
  rw [List.isChain_append]
  rcases hpl.coordinator_mem with ⟨hzero, hmade⟩ | hmem
  · refine iff_of_true ⟨hchain, .singleton p, ?_⟩ fun hne => absurd hzero hne
    rw [hmade]
    exact nofun
  · have hne := Nat.ne_of_gt (hpl.bounds _ hmem).1
    have hlast := (hs.ring (List.ne_nil_of_mem hmem)).2.2
    have hlink : (∀ x ∈ s.made.getLast?, ∀ y ∈ [p].head?,
        Function.update s.heap.genNumb p s.heap.newGen y =
          Function.update s.heap.genNumb p s.heap.newGen x + 1) ↔
        s.heap.newGen = s.heap.genNumb s.heap.coordinator + 1 := by
      rw [hlast]
      constructor
      · intro h
        have := h _ rfl p rfl
        rwa [Function.update_self, hold hmem] at this
      · rintro h x hx y hy
        obtain rfl := Option.some.inj hx
        obtain rfl := Option.some.inj hy
        rwa [Function.update_self, hold hmem]
    rw [hlink, newGen_eq_iff (hpl.short _ hmem) hne]
    exact ⟨fun h _ => h.2.2, fun h => ⟨hchain, .singleton p, h hne⟩⟩

theorem grown_sound (hs : s.Sound) (hpl : s.Placed) (he : Expands s.heap.limit p limit)
    (ht : t ≠ 0) (hp : p ≠ 0)
    (hshort : s.heap.coordinator ≠ 0 → s.heap.genNumb s.heap.coordinator < 2 ^ 15 - 1) :
    (s.grown t p limit).Sound := by
  have hnumbers := (grown_numbers_iff hs hpl he ht hp).mpr hshort
  obtain ⟨hlasso, hhead, -⟩ := linkRegion_ring limit hs hpl (page_notMem hpl he hp)
  refine ⟨fun x hx => ?_, hs.nodup, fun _ => ?_, hnumbers⟩
  · obtain ⟨r, hr, hslot⟩ := hs.slot x hx
    exact ⟨r, List.mem_append_left _ hr, hslot⟩
  · rw [grown_eq hpl ht hp]
    exact ⟨hlasso, hhead, List.getLast?_concat ..⟩

/-! ## Slots

The next slot of the coordinator, while it is not full. -/

/-- The objects when the slot at `top` has been taken. -/
def Objects.taken (s : Objects) : Objects :=
  ⟨{ s.heap with
      top := Function.update s.heap.top s.heap.coordinator
        (s.heap.top s.heap.coordinator + objSize) },
    s.made, s.take (s.heap.top s.heap.coordinator)⟩

/-- Slots of different regions differ. -/
theorem region_eq {a b : ℕ} (ha : kPgSize ∣ a) (hb : kPgSize ∣ b) (hxa : slots a ≤ x)
    (hxb : slots b ≤ x) (hxa' : x < a + defaultRegionSize) (hxb' : x < b + defaultRegionSize) :
    a = b := by
  unfold slots objSize at hxa hxb
  unfold defaultRegionSize at hxa' hxb'
  unfold kPgSize at *
  omega

/-- A region that is not full has room for a slot: regions are a whole number of slots. -/
theorem Objects.Placed.room (hpl : s.Placed) (hmem : s.heap.coordinator ∈ s.made)
    (hfull : ¬regionFullP s.heap s.heap.coordinator) :
    s.heap.top s.heap.coordinator + objSize ≤ s.heap.coordinator + defaultRegionSize := by
  obtain ⟨hlow, hhigh, hdvd⟩ := hpl.top_slot _ hmem
  have hpage := (hpl.bounds _ hmem).2.2.1
  unfold regionFullP at hfull
  unfold slots at hlow hdvd
  unfold defaultRegionSize kPgSize objSize at *
  omega

/-- The next slot has not been returned. -/
theorem Objects.Placed.top_notMem (hpl : s.Placed) (hmem : s.heap.coordinator ∈ s.made)
    (hfull : ¬regionFullP s.heap s.heap.coordinator) :
    s.heap.top s.heap.coordinator ∉ s.returned := by
  intro hx
  have hlow := (hpl.top_slot _ hmem).1
  have hroom := hpl.room hmem hfull
  obtain ⟨r, hr, hlow', htop, -⟩ := hpl.below_top _ hx
  have hr' := hpl.top_slot r hr
  have heq := region_eq (hpl.bounds r hr).2.2.1 (hpl.bounds _ hmem).2.2.1 hlow' hlow
    (by unfold objSize at htop; omega) (by unfold objSize at hroom; omega)
  rw [heq] at htop
  unfold objSize at htop
  omega

/-- **A slot is taken** of a region that is not full. -/
theorem taken_spec (hs : s.Sound) (hpl : s.Placed) (hmem : s.heap.coordinator ∈ s.made)
    (hfull : ¬regionFullP s.heap s.heap.coordinator) : s.taken.Sound ∧ s.taken.Placed := by
  obtain ⟨hlow, -, hdvd⟩ := hpl.top_slot _ hmem
  have hroom := hpl.room hmem hfull
  have hnew := hpl.top_notMem hmem hfull
  have htake : s.take (s.heap.top s.heap.coordinator) =
      s.heap.top s.heap.coordinator :: s.returned :=
    if_neg (by unfold slots objSize at hlow; omega)
  unfold Objects.taken
  rw [htake]
  refine ⟨⟨fun x hx => ?_, List.nodup_cons.mpr ⟨hnew, hs.nodup⟩, hs.ring, hs.numbers⟩,
    ⟨hpl.limit_pos, hpl.limit_page, hpl.bounds, hpl.free_eq, hpl.regions_eq, .inr hmem,
      fun r hr => ?_, fun x hx => ?_, hpl.short⟩⟩
  · rcases List.mem_cons.mp hx with rfl | hx
    · exact ⟨_, hmem, hlow, hroom, hdvd⟩
    · exact hs.slot x hx
  · dsimp only
    by_cases hrc : r = s.heap.coordinator
    · subst hrc
      rw [Function.update_self]
      refine ⟨hlow.trans (Nat.le_add_right _ _), hroom, ?_⟩
      rw [Nat.sub_add_comm hlow]
      exact Nat.dvd_add hdvd (Nat.dvd_refl _)
    · rw [Function.update_of_ne hrc]
      exact hpl.top_slot r hr
  · dsimp only
    rcases List.mem_cons.mp hx with rfl | hx
    · refine ⟨_, hmem, hlow, ?_, hdvd⟩
      rw [Function.update_self]
    · obtain ⟨r, hr, hlow', htop, hdvd'⟩ := hpl.below_top x hx
      refine ⟨r, hr, hlow', ?_, hdvd'⟩
      by_cases hrc : r = s.heap.coordinator
      · subst hrc
        rw [Function.update_self]
        exact htop.trans (Nat.le_add_right _ _)
      · rw [Function.update_of_ne hrc]
        exact htop

/-! ## One call -/

/-- The objects after a call. -/
def Objects.after (s : Objects) (c : Call) (limit : ℕ) : Objects :=
  ⟨(gcAllocObj c.t c.p limit s.heap).2, s.madeAfter c limit,
    s.take (gcAllocObj c.t c.p limit s.heap).1⟩

theorem after_of_not_full (hfull : ¬regionFullP s.heap s.heap.coordinator) :
    s.after c limit = s.taken := by
  rw [Objects.after, gcAllocObj, if_neg hfull, Objects.madeAfter, if_neg hfull]
  rfl

theorem after_of_grown (hpl : s.Placed) (hfull : regionFullP s.heap s.heap.coordinator)
    (ht : c.t ≠ 0) (hp : c.p ≠ 0) : s.after c limit = (s.grown c.t c.p limit).taken := by
  have hreg : (newGeneration c.t c.p limit s.heap).1 = c.p := by
    rw [newGeneration_some hpl.free_eq ht hp]
  rw [Objects.after, gcAllocObj, if_pos hfull, Objects.madeAfter, if_pos hfull, hreg, addRegion,
    if_neg hp]
  rfl

/-- A call without any region returns the word of `NULL` that it takes for `top`. -/
theorem taken_null_iff (hpl : s.Placed) (hzero : s.heap.coordinator = 0) (hmade : s.made = []) :
    s.taken.Sound ↔ s.heap.top 0 = 0 := by
  have hreturned : s.returned = [] := by
    refine List.eq_nil_iff_forall_not_mem.mpr fun x hx => ?_
    obtain ⟨r, hr, -⟩ := hpl.below_top x hx
    rw [hmade] at hr
    exact List.not_mem_nil hr
  unfold Objects.taken Objects.take
  rw [hzero, hmade, hreturned]
  split_ifs with htop
  · exact iff_of_true ⟨nofun, List.nodup_nil, fun h => absurd rfl h, .nil⟩ htop
  · refine iff_of_false (fun hs => ?_) htop
    obtain ⟨r, hr, -⟩ := hs.slot _ List.mem_cons_self
    exact List.not_mem_nil hr

theorem taken_null_placed (hpl : s.Placed) (hzero : s.heap.coordinator = 0) (hmade : s.made = [])
    (htop : s.heap.top 0 = 0) : s.taken.Placed := by
  have htake : s.take (s.heap.top s.heap.coordinator) = s.returned := by
    rw [hzero]
    exact if_pos htop
  unfold Objects.taken
  rw [htake]
  refine ⟨hpl.limit_pos, hpl.limit_page, hpl.bounds, hpl.free_eq, hpl.regions_eq,
    .inl ⟨hzero, hmade⟩, fun r hr => ?_, fun x hx => ?_, hpl.short⟩
  · dsimp only at hr
    rw [hmade] at hr
    exact absurd hr List.not_mem_nil
  · obtain ⟨r, hr, -⟩ := hpl.below_top x hx
    rw [hmade] at hr
    exact absurd hr List.not_mem_nil

/-- When no generation is made the slot behind the full region is returned. -/
theorem not_sound_of_none (limit : ℕ) (hpl : s.Placed)
    (hfull : regionFullP s.heap s.heap.coordinator) (hnone : c.t = 0 ∨ c.p = 0) :
    ¬(s.after c limit).Sound := by
  intro hs
  obtain ⟨l, heq, -⟩ := newGeneration_none limit hpl.free_eq hnone
  have htop : s.heap.top s.heap.coordinator = s.heap.coordinator + defaultRegionSize := by
    unfold regionFullP at hfull
    omega
  have hx : (gcAllocObj c.t c.p limit s.heap).1 = s.heap.coordinator + defaultRegionSize := by
    rw [gcAllocObj, if_pos hfull, heq]
    exact htop
  have hne : s.heap.coordinator + defaultRegionSize ≠ 0 := by
    unfold defaultRegionSize kPgSize
    omega
  have hmem : s.heap.coordinator + defaultRegionSize ∈ (s.after c limit).returned := by
    unfold Objects.after Objects.take
    rw [hx, if_neg hne]
    exact List.mem_cons_self
  obtain ⟨r, hr, hslot⟩ := hs.slot _ hmem
  have hmade : (s.after c limit).made = s.made := by
    unfold Objects.after Objects.madeAfter
    rw [if_pos hfull, heq]
    change addRegion s.made 0 = s.made
    exact if_pos rfl
  rw [hmade] at hr
  have hle := (hpl.bounds r hr).2.2.2
  have hhigh := hslot.high
  unfold objSize at hhigh
  omega

theorem not_full_grown (hpl : s.Placed) (ht : t ≠ 0) (hp : p ≠ 0) :
    ¬regionFullP (s.grown t p limit).heap (s.grown t p limit).heap.coordinator := by
  rw [grown_eq hpl ht hp]
  unfold regionFullP
  simp only [Heap.initRegion, Function.update_self]
  unfold slots objSize defaultRegionSize kPgSize
  omega

theorem coordinator_grown (hpl : s.Placed) (ht : t ≠ 0) (hp : p ≠ 0) :
    (s.grown t p limit).heap.coordinator ∈ (s.grown t p limit).made := by
  rw [grown_eq hpl ht hp]
  exact List.mem_append_right _ (List.mem_singleton_self p)

/-- **One call** does what it should just when it is served. -/
theorem served_iff (hs : s.Sound) (hpl : s.Placed) (hst : AllocStep s c s') :
    (c.Served s ↔ s'.Sound) ∧ (s'.Sound → s'.Placed) := by
  obtain ⟨limit, he, rfl⟩ : ∃ limit, Expands s.heap.limit c.p limit ∧ s' = s.after c limit := by
    cases hst with
    | alloc he => exact ⟨_, he, rfl⟩
  unfold Call.Served
  split_ifs with hfull
  · by_cases hgrant : c.t ≠ 0 ∧ c.p ≠ 0
    · obtain ⟨ht, hp⟩ := hgrant
      rw [after_of_grown hpl hfull ht hp]
      have hplaced := grown_placed hs hpl he ht hp
      have htaken (hshort) := taken_spec (grown_sound hs hpl he ht hp hshort) hplaced
        (coordinator_grown hpl ht hp) (not_full_grown hpl ht hp)
      have hnumbers (h : (s.grown c.t c.p limit).taken.Sound) :=
        (grown_numbers_iff hs hpl he ht hp).mp h.numbers
      exact ⟨⟨fun h => (htaken h.2.2).1, fun h => ⟨ht, hp, hnumbers h⟩⟩,
        fun h => (htaken (hnumbers h)).2⟩
    · have hnone : c.t = 0 ∨ c.p = 0 := by
        rw [not_and_or, not_ne_iff, not_ne_iff] at hgrant
        exact hgrant
      have hnot := not_sound_of_none limit hpl hfull hnone
      exact ⟨iff_of_false (fun h => hgrant ⟨h.1, h.2.1⟩) hnot, fun h => absurd h hnot⟩
  · rw [after_of_not_full hfull]
    rcases hpl.coordinator_mem with ⟨hzero, hmade⟩ | hmem
    · have hnull := taken_null_iff hpl hzero hmade
      rw [hnull]
      exact ⟨⟨fun h => h.resolve_left fun hne => hne hzero, .inr⟩,
        taken_null_placed hpl hzero hmade⟩
    · obtain ⟨hsound, hplaced⟩ := taken_spec hs hpl hmem hfull
      exact ⟨iff_of_true (.inl (Nat.ne_of_gt (hpl.bounds _ hmem).1)) hsound, fun _ => hplaced⟩

/-! ## Runs -/

theorem cleared_sound (h : Heap) : Objects.Sound ⟨clearedHeap h, [], []⟩ :=
  ⟨nofun, List.nodup_nil, fun hne => absurd rfl hne, .nil⟩

theorem cleared_placed (h : Heap) : Objects.Placed ⟨clearedHeap h, [], []⟩ :=
  ⟨Nat.succ_pos _, (by decide : kPgSize ∣ kSlotsStart + kPgSize), nofun, rfl, rfl, .inl ⟨rfl, rfl⟩,
    nofun, nofun, nofun⟩

/-- `scheme_init_gc` makes the first generation, or none. -/
theorem initial_spec (hinit : Initial s) : s.Sound ∧ s.Placed := by
  obtain @⟨h, t, p, limit, he⟩ := hinit
  have hs := cleared_sound h
  have hpl := cleared_placed h
  by_cases hgrant : t ≠ 0 ∧ p ≠ 0
  · obtain ⟨ht, hp⟩ := hgrant
    have hreg : (newGeneration t p limit (clearedHeap h)).1 = p := by
      rw [newGeneration_some hpl.free_eq ht hp]
    rw [hreg, addRegion, if_neg hp]
    exact ⟨grown_sound hs hpl he ht hp fun hne => absurd rfl hne, grown_placed hs hpl he ht hp⟩
  · rw [not_and_or, not_ne_iff, not_ne_iff] at hgrant
    obtain ⟨l, heq, hl⟩ := newGeneration_none (h := clearedHeap h) limit rfl hgrant
    have hpos : 0 < l := by
      have hcleared : 0 < (clearedHeap h).limit := hpl.limit_pos
      rcases hl with rfl | rfl
      · exact hcleared
      · exact hcleared.trans_le he.le
    have hdvd : kPgSize ∣ l := by
      rcases hl with rfl | rfl
      · exact hpl.limit_page
      · cases he with
        | granted => exact Nat.dvd_add hpl.limit_page (Nat.dvd_refl _)
        | refused => exact hpl.limit_page
        | noFrame => exact Nat.dvd_add hpl.limit_page (Nat.dvd_refl _)
    have hheap : schemeInitGc t p limit (clearedHeap h) = { clearedHeap h with limit := l } :=
      congrArg Prod.snd heq
    rw [hheap, heq]
    exact ⟨⟨nofun, List.nodup_nil, fun hne => absurd rfl hne, .nil⟩,
      ⟨hpos, hdvd, nofun, rfl, rfl, .inl ⟨rfl, rfl⟩, nofun, nofun, nofun⟩⟩

/-- **The slots of `gc_alloc_obj`**: they are as they should be in just those runs in which every
call is served. -/
theorem sound_of_served_run {s₀ : Objects} {calls : List Call} (hinit : Initial s₀) :
    Runs (Guarded (fun s c => c.Served s) AllocStep) s₀ calls s ↔
      Runs (fun s c (s' : Objects) => AllocStep s c s' ∧ s'.Sound) s₀ calls s := by
  refine Runs.guard_exact (I := fun s : Objects => s.Sound ∧ s.Placed) ?_ ?_ (initial_spec hinit)
  · intro s c s' hI hst
    exact (served_iff hI.1 hI.2 hst).1
  · intro s c s' hI hst hs'
    exact ⟨hs', (served_iff hI.1 hI.2 hst).2 hs'⟩

/-- The objects when the first generation has been made. -/
def firstObjects : Objects :=
  ⟨schemeInitGc 8 0x40001000 0x40002000 (clearedHeap emptyHeap), [0x40001000], []⟩

/-- The first two slots. -/
theorem sound_of_served_run_one :
    Runs (fun s c (s' : Objects) => AllocStep s c s' ∧ s'.Sound) firstObjects [⟨0, 0⟩, ⟨0, 0⟩]
      ((firstObjects.after ⟨0, 0⟩ 0x40002000).after ⟨0, 0⟩ 0x40002000) :=
  (sound_of_served_run (Initial.init (h := emptyHeap) (t := 8) .granted)).mp
    (.cons ⟨by decide, .alloc .refused⟩ (.single ⟨by decide, .alloc .refused⟩))

/-- The first generation is not made, and the word of `NULL` is 7. -/
theorem not_sound_of_served_run : ¬∀ (s₀ s : Objects) (calls : List Call), Initial s₀ →
    Runs AllocStep s₀ calls s → s.Sound := by
  intro h
  have hinit := Initial.init (h := { emptyHeap with top := fun _ => 7 }) (t := 0) .refused
  obtain ⟨hs, hpl⟩ := initial_spec hinit
  have hst := AllocStep.alloc (c := ⟨0, 0⟩) (s := ⟨schemeInitGc 0 0 (kSlotsStart + kPgSize)
    (clearedHeap { emptyHeap with top := fun _ => 7 }), [], []⟩) .refused
  have hserved := (served_iff hs hpl hst).1.mpr (h _ _ _ hinit (.single hst))
  exact absurd hserved (by decide)

end SchemeOs.Collector.Generations
