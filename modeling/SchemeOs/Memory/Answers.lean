import SchemeOs.Allocator.MallocTermination
import SchemeOs.Memory.Regions

/-!
# Memory/Answers — what `expand_region` answers over a run

`kmalloc` and the slots of the collector take `expand_region` for a source of pages that lie one
behind the other, until it answers `NULL` for good.  But heap, stack and slots compete for the
frames, heap and stack also for the addresses between them, and a call that finds no frame leaves
the region a page larger than its answers say.  The next answer would then leave a hole, were it not
that from there on all frames with memory behind them are taken.
-/

namespace SchemeOs.Memory

/-! ## The property -/

/-- The `i`-th page of a region. -/
def pageOf (region i : ℕ) : ℕ :=
  if region = mmHeap then kHeapStart + kPgSize * i
  else if region = mmStack then kStackStart - kPgSize * i
  else kSlotsStart + kPgSize * i

/-- The results of the calls for `region`. -/
def answers (region : ℕ) (calls : List (ℕ × ℕ)) : List ℕ :=
  (calls.filter (·.1 = region)).map Prod.snd

/-- The pages of a region from the `i`-th on, and then `NULL` for good. -/
def InOrder (region i : ℕ) (as : List ℕ) : Prop :=
  ∃ n m, as = (List.range n).map (fun j => pageOf region (i + j)) ++ List.replicate m 0

/-- The heap of `lib/malloc.c` after `k` calls of `expand_region(mm_heap)`. -/
def askedHeap (expand : ℕ → Bool) (mem : ℕ → Malloc.Header) : ℕ → Malloc.Heap
  | 0 => Malloc.kscmInitHeap mem
  | k + 1 => (Malloc.expandRegion expand (askedHeap expand mem k)).2

/-! ## Pages and bounds

The pages of a region are those from its start to its end, in the order they were asked for. -/

/-- The pages that the table counts for a region. -/
def pagesIn (region : ℕ) (table : Table) : ℕ := (table region).size / kPgSize

variable {table table' : Table} {high region r p q h k l i : ℕ} {m s t : Mem} {as : List ℕ}
variable {calls : List (ℕ × ℕ)} {call : ℕ × ℕ}

theorem pageOf_stack : pageOf mmStack i = 0x3fbff000 - 4096 * i := rfl

theorem Shape.pagesIn_heap (hs : Shape table h k l) : pagesIn mmHeap table = h := by
  simp [pagesIn, mmHeap, hs.heap, kPgSize]

theorem Shape.pagesIn_stack (hs : Shape table h k l) : pagesIn mmStack table = k := by
  simp [pagesIn, mmStack, hs.stack, kPgSize]

theorem Shape.pagesIn_slots (hs : Shape table h k l) : pagesIn mmSlots table = l := by
  simp [pagesIn, mmSlots, hs.slots, kPgSize]

/-- A region grows by its next page, and the others stay as they are. -/
theorem growTable_pages (hs : Shape table h k l) (hr : region ∈ growing)
    (hg : growTable region table = some (p, table')) :
    p = pageOf region (pagesIn region table) ∧
      ∀ r ∈ growing, pagesIn r table' = pagesIn r table + if r = region then 1 else 0 := by
  constructor
  · rcases growTable_cases hs hr hg with ⟨rfl, hp, -⟩ | ⟨rfl, hp, -⟩ | ⟨rfl, hp, -⟩
    · rw [hs.pagesIn_heap, hp]
      rfl
    · rw [hs.pagesIn_stack, hp, pageOf_stack]
      omega
    · rw [hs.pagesIn_slots, hp]
      rfl
  · intro r hr'
    simp only [growing, List.mem_cons, List.not_mem_nil, or_false] at hr'
    rcases growTable_cases hs hr hg with ⟨rfl, -, hs'⟩ | ⟨rfl, -, hs'⟩ | ⟨rfl, -, hs'⟩ <;>
      rcases hr' with rfl | rfl | rfl <;>
      simp only [hs.pagesIn_heap, hs.pagesIn_stack, hs.pagesIn_slots, hs'.pagesIn_heap,
        hs'.pagesIn_stack, hs'.pagesIn_slots] <;>
      rfl

/-- The bound of a region is met: the pages of heap and stack meet, or the slots end. -/
theorem growTable_eq_none_iff (hs : Shape table h k l) (hr : region ∈ growing) :
    growTable region table = none ↔
      region ≠ mmSlots ∧ 0x3f400 ≤ h + k ∨ region = mmSlots ∧ 0x20000 ≤ l := by
  have hgap := hs.gap
  have hroom := hs.room
  simp only [growing, List.mem_cons, List.not_mem_nil, or_false] at hr
  rcases hr with rfl | rfl | rfl
  · simp [growTable, mmHeap, mmSlots, hs.heap, hs.stack, mmrExpandUp, kPgSize]
    omega
  · simp [growTable, mmStack, mmSlots, hs.heap, hs.stack, mmrExpandUp, mmrExpandDown, kPgSize]
    omega
  · simp [growTable, mmSlots, hs.slots, hs.sentinel, mmrExpandUp, kPgSize]
    omega

/-- A bound that is met stays met. -/
theorem growTable_none_of_grown (hs : Shape table h k l) (hr : region ∈ growing)
    (hg : growTable region table = some (p, table')) (hr' : r ∈ growing)
    (hnone : growTable r table = none) : growTable r table' = none := by
  obtain ⟨h', k', l', hhk, hl, hs'⟩ : ∃ h' k' l', h + k ≤ h' + k' ∧ l ≤ l' ∧
      Shape table' h' k' l' := by
    rcases growTable_cases hs hr hg with ⟨-, -, hs'⟩ | ⟨-, -, hs'⟩ | ⟨-, -, hs'⟩ <;>
      exact ⟨_, _, _, by omega, by omega, hs'⟩
  refine (growTable_eq_none_iff hs' hr').mpr ?_
  rcases (growTable_eq_none_iff hs hr').mp hnone with ⟨hne, hmet⟩ | ⟨heq, hmet⟩
  · exact Or.inl ⟨hne, by omega⟩
  · exact Or.inr ⟨heq, by omega⟩

/-! ## Frames -/

/-- All frames with memory behind them are taken. -/
def Exhausted (high : ℕ) (b : Bitmap) : Prop :=
  ∀ j < pagingPages, frameAddr j < high → isFree b j = false

/-- **`expand_region`**: the bound is met, or a frame was found, or there was none and there is none
left. -/
theorem expandRegion_cases (hm : Paged high m) (hhigh : high ≤ 68156416) (hr : region ∈ growing) :
    (growTable region m.table = none ∧ expandRegion high region m = some (0, m)) ∨
    ∃ p t, growTable region m.table = some (p, t.table) ∧ p ≠ 0 ∧
      (¬ Exhausted high m.bitmap ∧ expandRegion high region m = some (p, t) ∨
        Exhausted high t.bitmap ∧ expandRegion high region m = some (0, t)) := by
  have hslots : ¬ mmSlots < region := by
    simp only [growing, List.mem_cons, List.not_mem_nil, or_false] at hr
    rcases hr with rfl | rfl | rfl <;> decide
  rw [expandRegion, if_neg hslots]
  cases hg : growTable region m.table with
  | none => exact Or.inl ⟨rfl, rfl⟩
  | some pt =>
    obtain ⟨p, table⟩ := pt
    obtain ⟨h, k, l, hs⟩ := hm.shape
    obtain ⟨hp0, hptr⟩ := growTable_page hs hr hg
    have hshape : ∃ h k l, Shape table h k l := by
      rcases growTable_cases hs hr hg with ⟨-, -, hs'⟩ | ⟨-, -, hs'⟩ | ⟨-, -, hs'⟩ <;>
        exact ⟨_, _, _, hs'⟩
    have hspec := getFreeFrame_spec m.bitmap
    obtain ⟨j, hj, haddr, hfree, hlow, hbits⟩ := hspec.resolve_left fun hnone => by
      obtain ⟨j, hj, hfree⟩ := hm.backed.exists_free hhigh
      rw [hnone.2 j hj] at hfree
      exact Bool.noConfusion hfree
    refine Or.inr ⟨p, ?_⟩
    by_cases hin : frameAddr j < high
    · have hm' : Paged high { m with table, bitmap := (getFreeFrame m.bitmap).2 } :=
        ⟨hshape, hm.present, hm.backed.take hin hbits⟩
      rcases putPage_spec hm' hhigh hptr (j := j) with ⟨hle, -⟩ | ⟨t, -, hput, htable, -⟩
      · omega
      · refine ⟨t, by rw [htable], hp0, Or.inl ⟨fun hexh => ?_, by simp [haddr, hput, hp0]⟩⟩
        rw [hexh j hj hin] at hfree
        exact Bool.noConfusion hfree
    · -- the lowest free frame has no memory behind it, and is given back
      obtain ⟨b, hb, hbits'⟩ := freeFrame_spec (getFreeFrame m.bitmap).2 hj
      refine ⟨{ m with table, bitmap := b }, rfl, hp0, Or.inr ⟨fun i hi hlt => ?_, ?_⟩⟩
      · have hij : i < j := by
          simp only [frameAddr] at hlt hin
          omega
        simp [hbits', hbits, hlow i hij, hij.ne]
      · refine Option.bind_eq_some_iff.mpr ⟨_, putPage_refused (haddr ▸ Nat.not_lt.mp hin), ?_⟩
        exact (if_pos rfl).trans (Option.map_eq_some_iff.mpr ⟨b, haddr ▸ hb, rfl⟩)

/-! ## Steps

One call answers with the next page of its region, or with `NULL` and for good. -/

/-- The region gets no page any more. -/
def Final (high region : ℕ) (m : Mem) : Prop :=
  growTable region m.table = none ∨ Exhausted high m.bitmap

/-- **A refusal is final**: a region that gets no page any more gets none in any call, and stays so
whatever the other regions ask for. -/
theorem final_step (hhigh : high ≤ 68156416) (hm : Paged high s) (hr : region ∈ growing)
    (hfinal : Final high region s) (hst : Expands high s call t) :
    Final high region t ∧ (call.1 = region → call.2 = 0) := by
  obtain ⟨r, q⟩ := call
  obtain ⟨hcall, hst⟩ := hst
  rcases expandRegion_cases hm hhigh hcall with ⟨-, hexp⟩ | ⟨p, t', hg, -, hexp⟩
  · obtain ⟨rfl, rfl⟩ := Prod.mk.inj (Option.some.inj (hexp.symm.trans hst))
    exact ⟨hfinal, fun _ => rfl⟩
  · rcases hexp with ⟨hframes, hexp⟩ | ⟨hframes, hexp⟩ <;>
      obtain ⟨rfl, rfl⟩ := Prod.mk.inj (Option.some.inj (hexp.symm.trans hst))
    · have hnone := hfinal.resolve_right hframes
      obtain ⟨h, k, l, hs⟩ := hm.shape
      refine ⟨Or.inl (growTable_none_of_grown hs hcall hg hr hnone), fun heq => ?_⟩
      obtain rfl : r = region := heq
      simp [hg] at hnone
    · exact ⟨Or.inr hframes, fun _ => rfl⟩

/-- **The step lemma**: a call returns the next page of its region or ends it, and the pages of the
others stay as they are. -/
theorem answer_step (hhigh : high ≤ 68156416) (hm : Paged high s)
    (hst : Expands high s call t) :
    (call.2 = 0 ∧ Final high call.1 t ∨
      call.2 = pageOf call.1 (pagesIn call.1 s.table) ∧
        pagesIn call.1 t.table = pagesIn call.1 s.table + 1) ∧
    ∀ r ∈ growing, r ≠ call.1 → pagesIn r t.table = pagesIn r s.table := by
  obtain ⟨r, q⟩ := call
  obtain ⟨hcall, hst⟩ := hst
  rcases expandRegion_cases hm hhigh hcall with ⟨hnone, hexp⟩ | ⟨p, t', hg, -, hexp⟩
  · obtain ⟨rfl, rfl⟩ := Prod.mk.inj (Option.some.inj (hexp.symm.trans hst))
    exact ⟨Or.inl ⟨rfl, Or.inl hnone⟩, fun _ _ _ => rfl⟩
  · obtain ⟨h, k, l, hs⟩ := hm.shape
    obtain ⟨hp, hpages⟩ := growTable_pages hs hcall hg
    have hothers : ∀ r' ∈ growing, r' ≠ r → pagesIn r' t'.table = pagesIn r' s.table :=
      fun r' hr' hne => by rw [hpages r' hr', if_neg hne, Nat.add_zero]
    rcases hexp with ⟨-, hexp⟩ | ⟨hframes, hexp⟩ <;>
      obtain ⟨rfl, rfl⟩ := Prod.mk.inj (Option.some.inj (hexp.symm.trans hst))
    · refine ⟨Or.inr ⟨hp, ?_⟩, hothers⟩
      rw [hpages r hcall, if_pos rfl]
    · exact ⟨Or.inl ⟨rfl, Or.inr hframes⟩, hothers⟩

/-- The regions stand apart. -/
theorem Paged.disjoint (hm : Paged high m) {i j : ℕ} (hi : i ≤ 4) (hj : j ≤ 4) (hne : i ≠ j) :
    Disjoint (m.table i).span (m.table j).span := by
  obtain ⟨h, k, l, hs⟩ := hm.shape
  rcases Nat.lt_or_gt_of_ne hne with hlt | hgt
  · exact hs.separate.disjoint i j hlt hj
  · exact (hs.separate.disjoint j i hgt hi).symm

/-- No region loses pages. -/
theorem pagesIn_le (hhigh : high ≤ 68156416) (hm : Paged high s) (hst : Expands high s call t)
    (hr : r ∈ growing) : pagesIn r s.table ≤ pagesIn r t.table := by
  obtain ⟨hcall, hst⟩ := hst
  obtain ⟨h, k, l, hs⟩ := hm.shape
  rcases expandRegion_cases hm hhigh hcall with ⟨-, hexp⟩ | ⟨p, t', hg, -, hexp⟩
  · obtain ⟨-, rfl⟩ := Prod.mk.inj (Option.some.inj (hexp.symm.trans hst))
    exact le_rfl
  · have hpages := (growTable_pages hs hcall hg).2 r hr
    rcases hexp with ⟨-, hexp⟩ | ⟨-, hexp⟩ <;>
      obtain ⟨-, rfl⟩ := Prod.mk.inj (Option.some.inj (hexp.symm.trans hst)) <;>
      exact (Nat.le_add_right _ _).trans hpages.ge

/-! ## Runs -/

theorem answers_cons_self : answers call.1 (call :: calls) = call.2 :: answers call.1 calls := by
  simp [answers]

theorem answers_cons_ne (hne : call.1 ≠ region) :
    answers region (call :: calls) = answers region calls := by
  simp [answers, hne]

theorem InOrder.nil : InOrder region i [] := ⟨0, 0, rfl⟩

theorem InOrder.cons (h : InOrder region (i + 1) as) :
    InOrder region i (pageOf region i :: as) := by
  obtain ⟨n, m, rfl⟩ := h
  refine ⟨n + 1, m, ?_⟩
  rw [List.range_succ_eq_map, List.map_cons, List.map_map, List.cons_append]
  refine congrArg (pageOf region i :: ·) (congrArg (· ++ List.replicate m 0) ?_)
  exact List.map_congr_left fun j _ =>
    congrArg (pageOf region) (show i + 1 + j = i + (j + 1) by omega)

theorem InOrder.zeros (h : ∀ q ∈ as, q = 0) : InOrder region i as :=
  ⟨0, as.length, List.eq_replicate_iff.mpr ⟨rfl, h⟩⟩

/-- A region that gets no page any more gets none in any run. -/
theorem final_run (hhigh : high ≤ 68156416) (hr : Runs (Expands high) s calls t)
    (hregion : region ∈ growing) (hm : Paged high s) (hfinal : Final high region s) :
    ∀ q ∈ answers region calls, q = 0 := by
  induction hr with
  | nil s => exact fun q hq => absurd hq List.not_mem_nil
  | @cons s s' t call calls hst _ ih =>
    obtain ⟨hfinal', hzero⟩ := final_step hhigh hm hregion hfinal hst
    have hrest := ih (expands_step hhigh hm hst).1 hfinal'
    by_cases heq : call.1 = region
    · subst heq
      rw [answers_cons_self]
      intro q hq
      rcases List.mem_cons.mp hq with rfl | hq
      · exact hzero rfl
      · exact hrest q hq
    · rwa [answers_cons_ne heq]

/-- **The run lemma**, by the calls from the first one on: the answers go on with the next page,
until one of them ends the region. -/
theorem inOrder_run (hhigh : high ≤ 68156416) (hr : Runs (Expands high) s calls t)
    (hregion : region ∈ growing) (hm : Paged high s) :
    InOrder region (pagesIn region s.table) (answers region calls) := by
  induction hr with
  | nil s => exact .nil
  | @cons s s' t call calls hst hrun ih =>
    have hm' := (expands_step hhigh hm hst).1
    obtain ⟨hself, hothers⟩ := answer_step hhigh hm hst
    by_cases heq : call.1 = region
    · subst heq
      rw [answers_cons_self]
      rcases hself with ⟨hzero, hfinal⟩ | ⟨hpage, hpages⟩
      · refine .zeros fun q hq => ?_
        rcases List.mem_cons.mp hq with rfl | hq
        · exact hzero
        · exact final_run hhigh hrun hregion hm' hfinal q hq
      · rw [hpage]
        exact .cons (hpages ▸ ih hm')
    · rw [answers_cons_ne heq, ← hothers region hregion (Ne.symm heq)]
      exact ih hm'

/-- From `kscm_init_paging` on, where every region has its first page. -/
theorem inOrder_init {ext : BitVec 16} {dir : ℕ → ℕ}
    (h₀ : kscmInitPaging (highMemory ext) dir = some s)
    (hr : Runs (Expands (highMemory ext)) s calls t) (hregion : region ∈ growing) :
    InOrder region 1 (answers region calls) := by
  obtain ⟨s', hs', htable, hm⟩ := exists_kscmInitPaging (highMemory ext) dir
  obtain rfl := Option.some.inj (h₀.symm.trans hs')
  have hpages : pagesIn region s.table = 1 := by
    rw [htable]
    simp only [growing, List.mem_cons, List.not_mem_nil, or_false] at hregion
    rcases hregion with rfl | rfl | rfl <;> decide
  exact hpages ▸ inOrder_run (highMemory_le ext) hr hregion hm

/-- `expand_region` returns. -/
theorem exists_expands (hhigh : high ≤ 68156416) (hm : Paged high m) (hr : region ∈ growing) :
    ∃ q t, Expands high m (region, q) t := by
  rcases expandRegion_spec hm hhigh hr with hnull | ⟨_, _, q, t, _, hexp, -⟩
  · exact ⟨0, m, hr, hnull⟩
  · exact ⟨q, t, hr, hexp⟩

/-- Two calls from `kscm_init_paging` on. -/
theorem exists_calls (ext : BitVec 16) (dir : ℕ → ℕ) (hr : region ∈ growing)
    (hr' : r ∈ growing) : ∃ s₀ q q' t, kscmInitPaging (highMemory ext) dir = some s₀ ∧
      Runs (Expands (highMemory ext)) s₀ [(region, q), (r, q')] t := by
  have hhigh := highMemory_le ext
  obtain ⟨s₀, h₀, -, hm⟩ := exists_kscmInitPaging (highMemory ext) dir
  obtain ⟨q, t, hq⟩ := exists_expands hhigh hm hr
  obtain ⟨q', u, hq'⟩ := exists_expands hhigh (expands_step hhigh hm hq).1 hr'
  exact ⟨s₀, q, q', u, h₀, .cons hq (.single hq')⟩

/-- **The answers of `expand_region`**: in every run from `kscm_init_paging`, in whatever order the
heap, the stack and the slots ask, each of them gets its pages one behind the other, and none any
more after the first `NULL`. -/
theorem answers_in_order {ext : BitVec 16} {dir : ℕ → ℕ}
    (h₀ : kscmInitPaging (highMemory ext) dir = some s)
    (hr : Runs (Expands (highMemory ext)) s calls t) (hregion : region ∈ growing) :
    ∃ n m, answers region calls =
      (List.range n).map (fun j => pageOf region (1 + j)) ++ List.replicate m 0 :=
  inOrder_init h₀ hr hregion

/-- The stack, twice. -/
theorem answers_in_order_stack : ∃ s₀ q r t,
    kscmInitPaging (highMemory 1024#16) (fun _ => 0) = some s₀ ∧
      Runs (Expands (highMemory 1024#16)) s₀ [(mmStack, q), (mmStack, r)] t ∧
      ∃ n m, [q, r] =
        (List.range n).map (fun j => pageOf mmStack (1 + j)) ++ List.replicate m 0 := by
  have hstack : mmStack ∈ growing := by decide
  obtain ⟨s₀, q, r, t, h₀, hrun⟩ := exists_calls 1024#16 (fun _ => 0) hstack hstack
  exact ⟨s₀, q, r, t, h₀, hrun, answers_in_order h₀ hrun hstack⟩

/-! ## The heap as `kmalloc` sees it -/

/-- While only the first `n` calls succeed, the heap is the pages of those that were made. -/
theorem askedHeap_spec (n : ℕ) (mem : ℕ → Malloc.Header) (k : ℕ) :
    (askedHeap (fun i => decide (i < n)) mem k).expansions = k ∧
      (askedHeap (fun i => decide (i < n)) mem k).heapEnd =
        Malloc.kHeapStart + Malloc.pageUnits * (1 + min k n) := by
  induction k with
  | zero => simp [askedHeap, Malloc.kscmInitHeap]
  | succ k ih =>
    obtain ⟨hexp, hend⟩ := ih
    refine ⟨by simp [askedHeap, Malloc.expandRegion, Malloc.Heap.askedPage, hexp], ?_⟩
    simp only [askedHeap, Malloc.expandRegion, Malloc.Heap.askedPage, hexp, hend,
      decide_eq_true_eq]
    by_cases hk : k < n
    · rw [if_pos hk, min_eq_left hk.le, min_eq_left (Nat.succ_le_of_lt hk), Nat.add_assoc,
        ← Nat.mul_succ]
      rfl
    · rw [if_neg hk, min_eq_right (by omega), min_eq_right (by omega)]

/-- **The pages of `kmalloc`**: in every run from `kscm_init_paging` the calls for the heap are
answered as the allocator takes for granted, with the page above the heap or `NULL`, and the pages
run out. -/
theorem heap_answers {ext : BitVec 16} {dir : ℕ → ℕ}
    (h₀ : kscmInitPaging (highMemory ext) dir = some s)
    (hr : Runs (Expands (highMemory ext)) s calls t) :
    ∃ expand, Malloc.Exhausts expand ∧ ∀ mem,
      answers mmHeap calls = (List.range (answers mmHeap calls).length).map fun k =>
        Malloc.headerSize * (Malloc.expandRegion expand (askedHeap expand mem k)).1 := by
  have hheap : mmHeap ∈ growing := by decide
  obtain ⟨n, m, heq⟩ := inOrder_init h₀ hr hheap
  refine ⟨fun i => decide (i < n), fun k => ⟨max k n, le_max_left .., by simp⟩, fun mem => ?_⟩
  have hstart : Malloc.kHeapStart = 0x100000 := by decide +kernel
  have hunits : Malloc.pageUnits = 512 := by decide +kernel
  rw [heq, List.length_append, List.length_map, List.length_range, List.length_replicate,
    List.range_add, List.map_append, List.map_map]
  congr 1
  · refine List.map_congr_left fun k hk => ?_
    have hlt := List.mem_range.mp hk
    obtain ⟨hexp, hend⟩ := askedHeap_spec n mem k
    simp only [Malloc.expandRegion, hexp, hend, decide_eq_true_eq, if_pos hlt, hstart, hunits,
      min_eq_left hlt.le, pageOf, kHeapStart, lowMem, kPgSize, Malloc.headerSize, if_true]
    omega
  · refine (List.eq_replicate_iff.mpr ⟨by simp, fun q hq => ?_⟩).symm
    obtain ⟨k, -, rfl⟩ := List.mem_map.mp hq
    obtain ⟨hexp, -⟩ := askedHeap_spec n mem (n + k)
    simp [Malloc.expandRegion, hexp]

/-- The heap, and the slots after it. -/
theorem heap_answers_slots : ∃ s₀ q r t,
    kscmInitPaging (highMemory 1024#16) (fun _ => 0) = some s₀ ∧
      Runs (Expands (highMemory 1024#16)) s₀ [(mmHeap, q), (mmSlots, r)] t ∧
      ∃ expand, Malloc.Exhausts expand ∧ ∀ mem,
        q = Malloc.headerSize * (Malloc.expandRegion expand (askedHeap expand mem 0)).1 := by
  have hheap : mmHeap ∈ growing := by decide
  have hslots : mmSlots ∈ growing := by decide
  obtain ⟨s₀, q, r, t, h₀, hrun⟩ := exists_calls 1024#16 (fun _ => 0) hheap hslots
  obtain ⟨expand, hends, hanswers⟩ := heap_answers h₀ hrun
  exact ⟨s₀, q, r, t, h₀, hrun, expand, hends, fun mem => (List.cons.inj (hanswers mem)).1⟩

end SchemeOs.Memory
