import SchemeOs.Collector.Regions

/-!
# Collector/FreeRegions — the ring of free regions

Freeing a region puts it at the end of the ring that starts at `__free_regions`.  `_alloc_region`
takes the first one off, and while that is the only one the ring is empty then.  With two free
regions `__free_regions` is left at a region in use.
-/

namespace SchemeOs.Collector

/-! ## The system

Regions are allocated and freed in any order, and the mutator writes into its own. -/

/-- The heap, the regions that have been allocated, and those freed since. -/
structure System where
  heap : Heap
  used : List ℕ
  free : List ℕ

/-- A call of `_alloc_region` or of `_free_region`, or a change of the links of regions in use. -/
inductive Event where
  | alloc
  | free (reg : ℕ)
  | write
  deriving DecidableEq, Repr

/-- The system when `_alloc_region` has returned `r.1`. -/
def System.allocated (s : System) (r : ℕ × Heap) : System :=
  ⟨r.2, if r.1 = 0 then s.used else r.1 :: s.used, s.free.erase r.1⟩

inductive Step : System → Event → System → Prop where
  | alloc {s : System} {p limit : ℕ} : Expands s.heap.limit p limit →
      Step s .alloc (s.allocated (allocRegion p limit s.heap))
  | free {s : System} {reg : ℕ} : reg ∈ s.used →
      Step s (.free reg) ⟨freeRegion reg s.heap, s.used.erase reg, reg :: s.free⟩
  | write {s : System} {h : Heap} : h.freeRegions = s.heap.freeRegions → h.limit = s.heap.limit →
      (∀ r, r ∉ s.used → h.next r = s.heap.next r ∧ h.prev r = s.heap.prev r) →
      Step s .write { s with heap := h }

/-- No region has been allocated, and the slots region has its first page. -/
def System.init (h : Heap) : System :=
  ⟨{ h with freeRegions := 0, limit := Memory.kSlotsStart + Memory.kPgSize }, [], []⟩

/-- The regions `l` are a ring in both directions, from `head` on. -/
structure Ring (next prev : ℕ → ℕ) (l : List ℕ) (head : ℕ) : Prop where
  lasso : Lasso next l head
  head_eq : l.head? = some head
  prev_next : ∀ r ∈ l, prev (next r) = r

/-- No region has been returned that was in use; the free ones are one ring from `__free_regions`
on, which is `NULL` exactly when there is none. -/
structure System.Sound (s : System) : Prop where
  nodup : s.used.Nodup
  ring : s.free ≠ [] → ∃ l, (∀ r, r ∈ l ↔ r ∈ s.free) ∧
    Ring s.heap.next s.heap.prev l s.heap.freeRegions
  null_iff : s.heap.freeRegions = 0 ↔ s.free = []

/-- Whether a call does what it should: there is at most one free region when one is allocated. -/
def Event.Sparse (s : System) : Event → Prop
  | .alloc => s.free.length ≤ 1
  | _ => True

/-! ## Rings

The free regions are linked into a ring, from any of them on. -/

variable {next prev : ℕ → ℕ} {l : List ℕ} {head r p limit : ℕ} {s s' : System} {e : Event}
  {h : Heap}

namespace Ring

theorem single (next prev : ℕ → ℕ) (r : ℕ) :
    Ring (Function.update next r r) (Function.update prev r r) [r] r where
  lasso := ⟨by simp, List.nodup_singleton r, .inl rfl⟩
  head_eq := rfl
  prev_next x hx := by
    rw [List.mem_singleton.mp hx, Function.update_self, Function.update_self]

/-- A ring depends on the links of its regions. -/
theorem congr {next' prev' : ℕ → ℕ} (h : Ring next prev l head)
    (hsame : ∀ r ∈ l, next' r = next r ∧ prev' r = prev r) : Ring next' prev' l head where
  lasso := h.lasso.congr_next fun y hy => (hsame y hy).1
  head_eq := h.head_eq
  prev_next y hy := by
    rw [(hsame y hy).1, (hsame _ (h.lasso.next_mem hy)).2]
    exact h.prev_next y hy

/-- The region in front of the first one points at it. -/
theorem exists_last (h : Ring next prev l head) : prev head ∈ l ∧ next (prev head) = head := by
  obtain ⟨l', q, rfl⟩ : ∃ l' q, l = l' ++ [q] := by
    have hne : l ≠ [] := by
      rintro rfl
      cases h.head_eq
    exact ⟨_, _, (List.dropLast_append_getLast hne).symm⟩
  have hq : next q = head := by
    have := Lasso.next_eq_head h.lasso
    rw [List.nil_append, List.head?_cons, Option.some_inj] at this
    exact this.symm
  have hmem : q ∈ l' ++ [q] := List.mem_append_right _ (List.mem_singleton_self q)
  have hprev : prev head = q := by rw [← hq, h.prev_next q hmem]
  rw [hprev]
  exact ⟨hmem, hq⟩

/-- **Inserting** a region at the end. -/
theorem insert (h : Ring next prev l head) (hr : r ∉ l) :
    Ring (Function.update (Function.update next r head) (prev head) r)
      (Function.update (Function.update prev r (prev head)) head r) (l ++ [r]) head := by
  obtain ⟨hmem, hlast⟩ := h.exists_last
  have hhead : head ∈ l := h.lasso.mem_closing
  have hrq : prev head ≠ r := fun heq => hr (heq ▸ hmem)
  have hrh : head ≠ r := fun heq => hr (heq ▸ hhead)
  rw [Function.update_comm hrq.symm]
  refine ⟨h.lasso.insertLast h.head_eq hmem hlast hr, ?_, ?_⟩
  · rw [List.head?_append, h.head_eq]
    rfl
  · intro x hx
    rcases List.mem_append.mp hx with hx | hx
    · have hxr : x ≠ r := fun heq => hr (heq ▸ hx)
      rw [Function.update_of_ne hxr]
      by_cases hxq : x = prev head
      · rw [hxq, Function.update_self, Function.update_of_ne hrh.symm, Function.update_self]
      · have hnext : next x ≠ head := fun heq => hxq (by rw [← heq, h.prev_next x hx])
        have hnr : next x ≠ r := fun heq => hr (heq ▸ h.lasso.next_mem hx)
        rw [Function.update_of_ne hxq, Function.update_of_ne hnext, Function.update_of_ne hnr,
          h.prev_next x hx]
    · rw [List.mem_singleton.mp hx, Function.update_self, Function.update_self]

/-- In a ring of several regions none points at itself. -/
theorem next_ne (h : Ring next prev l head) {a b : ℕ} (ha : a ∈ l) (hb : b ∈ l) (hab : a ≠ b) :
    next head ≠ head := by
  intro hself
  obtain ⟨t, rfl⟩ := List.head?_eq_some_iff.mp h.head_eq
  have hlasso : Lasso next ([] ++ head :: t) head := h.lasso
  have hnext := hlasso.next_eq_head
  rw [hself] at hnext
  cases t with
  | nil =>
    rw [List.mem_singleton] at ha hb
    exact hab (ha.trans hb.symm)
  | cons c t =>
    rw [List.cons_append, List.head?_cons, Option.some_inj] at hnext
    exact (List.nodup_cons.mp h.lasso.nodup).1 (hnext ▸ List.mem_cons_self)

end Ring

/-! ## One call -/

/-- The invariant: what is allocated and free is apart, below the end of the slots region. -/
structure System.Apart (s : System) : Prop where
  limit_pos : 0 < s.heap.limit
  used_bounds : ∀ r ∈ s.used, 0 < r ∧ r < s.heap.limit
  free_bounds : ∀ r ∈ s.free, 0 < r ∧ r < s.heap.limit
  free_nodup : s.free.Nodup
  disjoint : ∀ r ∈ s.used, r ∉ s.free

/-- With no free region there is a new one, or none. -/
theorem allocRegion_nil (h : s.Sound) (hfree : s.free = []) :
    allocRegion p limit s.heap = (p, { s.heap with limit := limit }) :=
  if_pos (h.null_iff.mpr hfree)

/-- The only free region leaves none. -/
theorem allocRegion_single (h : s.Sound) (hfree : s.free = [r]) :
    allocRegion p limit s.heap = (r, { s.heap with freeRegions := 0 }) := by
  obtain ⟨l, hmem, hring⟩ := h.ring (by rw [hfree]; exact List.cons_ne_nil _ _)
  have hne : s.heap.freeRegions ≠ 0 := fun h0 => by
    rw [h.null_iff.mp h0] at hfree
    cases hfree
  have hone {x : ℕ} (hx : x ∈ l) : x = r := by
    have := (hmem x).mp hx
    rwa [hfree, List.mem_singleton] at this
  have hhead := hone hring.lasso.mem_closing
  have hself := hone (hring.lasso.next_mem hring.lasso.mem_closing)
  rw [hhead] at hself hne
  unfold allocRegion
  rw [hhead, if_neg hne, if_pos hself]

/-- Of several free regions the first one is returned, and `__free_regions` stays there. -/
theorem allocRegion_several (p limit : ℕ) (h : s.Sound) (hs : s.Apart) (hfree : 1 < s.free.length) :
    (allocRegion p limit s.heap).1 = s.heap.freeRegions ∧ s.heap.freeRegions ∈ s.free ∧
      (allocRegion p limit s.heap).2.freeRegions = s.heap.freeRegions := by
  obtain ⟨a, b, t, ht⟩ : ∃ a b t, s.free = a :: b :: t := by
    match hf : s.free with
    | [] => rw [hf] at hfree; cases hfree
    | [a] => rw [hf] at hfree; exact absurd hfree (Nat.lt_irrefl 1)
    | a :: b :: t => exact ⟨a, b, t, rfl⟩
  have hne : s.free ≠ [] := by
    rw [ht]
    exact List.cons_ne_nil _ _
  obtain ⟨l, hmem, hring⟩ := h.ring hne
  have hnull : s.heap.freeRegions ≠ 0 := fun h0 => hne (h.null_iff.mp h0)
  have hab : a ≠ b := by
    have := hs.free_nodup
    rw [ht] at this
    exact fun heq => (List.nodup_cons.mp this).1 (heq ▸ List.mem_cons_self)
  have hnext := hring.next_ne (a := a) (b := b) ((hmem a).mpr (by rw [ht]; simp))
    ((hmem b).mpr (by rw [ht]; simp)) hab
  have hin := (hmem _).mp hring.lasso.mem_closing
  unfold allocRegion
  rw [if_neg hnull, if_neg hnext]
  exact ⟨rfl, hin, rfl⟩

/-- A new region. -/
theorem allocated_new (h : s.Sound) (hs : s.Apart) (he : Expands s.heap.limit p limit)
    (hfree : s.free = []) :
    (s.allocated (p, { s.heap with limit := limit })).Sound ∧
      (s.allocated (p, { s.heap with limit := limit })).Apart := by
  have hle := he.le
  have hnil : s.free.erase p = [] := by rw [hfree, List.erase_nil]
  have hnull := h.null_iff.mpr hfree
  unfold System.allocated
  dsimp only
  rw [hnil]
  split_ifs with hp
  · refine ⟨⟨h.nodup, fun hne => absurd rfl hne, iff_of_true hnull rfl⟩,
      ⟨?_, fun r hr => ?_, nofun, List.nodup_nil, fun _ _ => List.not_mem_nil⟩⟩
    · exact Nat.lt_of_lt_of_le hs.limit_pos hle
    · exact ⟨(hs.used_bounds r hr).1, Nat.lt_of_lt_of_le (hs.used_bounds r hr).2 hle⟩
  · obtain ⟨rfl, rfl⟩ := he.eq_limit hp
    have hnot : s.heap.limit ∉ s.used := fun hmem => Nat.lt_irrefl _ (hs.used_bounds _ hmem).2
    refine ⟨⟨List.nodup_cons.mpr ⟨hnot, h.nodup⟩, fun hne => absurd rfl hne, iff_of_true hnull rfl⟩,
      ⟨?_, fun r hr => ?_, nofun, List.nodup_nil, fun _ _ => List.not_mem_nil⟩⟩
    · exact Nat.lt_of_lt_of_le hs.limit_pos hle
    · dsimp only
      rcases List.mem_cons.mp hr with rfl | hr
      · exact ⟨hs.limit_pos, Nat.lt_add_of_pos_right (by decide)⟩
      · exact ⟨(hs.used_bounds r hr).1, Nat.lt_of_lt_of_le (hs.used_bounds r hr).2 hle⟩

/-- The only free region. -/
theorem allocated_single (h : s.Sound) (hs : s.Apart) (hfree : s.free = [r]) :
    (s.allocated (r, { s.heap with freeRegions := 0 })).Sound ∧
      (s.allocated (r, { s.heap with freeRegions := 0 })).Apart := by
  have hr := hs.free_bounds r (by rw [hfree]; exact List.mem_singleton_self r)
  have hnot : r ∉ s.used := fun hmem =>
    hs.disjoint r hmem (by rw [hfree]; exact List.mem_singleton_self r)
  have hnil : s.free.erase r = [] := by rw [hfree, List.erase_cons_head]
  unfold System.allocated
  dsimp only
  rw [hnil, if_neg (Nat.ne_of_gt hr.1)]
  refine ⟨⟨List.nodup_cons.mpr ⟨hnot, h.nodup⟩, fun hne => absurd rfl hne, iff_of_true rfl rfl⟩,
    ⟨hs.limit_pos, fun x hx => ?_, nofun, List.nodup_nil, fun _ _ => List.not_mem_nil⟩⟩
  rcases List.mem_cons.mp hx with rfl | hx
  · exact hr
  · exact hs.used_bounds x hx

/-- `_free_region` puts a region in use into the ring. -/
theorem freed_sound (h : s.Sound) (hs : s.Apart) (hr : r ∈ s.used) :
    System.Sound ⟨freeRegion r s.heap, s.used.erase r, r :: s.free⟩ := by
  have hpos := (hs.used_bounds r hr).1
  have hnot := hs.disjoint r hr
  unfold freeRegion
  split_ifs with hnull
  · have hfree := h.null_iff.mp hnull
    refine ⟨h.nodup.erase r, fun _ => ⟨[r], fun x => ?_, Ring.single _ _ r⟩,
      iff_of_false (Nat.ne_of_gt hpos) (List.cons_ne_nil _ _)⟩
    rw [hfree]
  · obtain ⟨l, hmem, hring⟩ := h.ring fun hfree => hnull (h.null_iff.mpr hfree)
    refine ⟨h.nodup.erase r, fun _ => ⟨l ++ [r], fun x => ?_, ?_⟩,
      iff_of_false hnull (List.cons_ne_nil _ _)⟩
    · rw [List.mem_append, List.mem_singleton, List.mem_cons, hmem, or_comm]
    · dsimp only
      rw [Function.update_self]
      exact hring.insert fun hl => hnot ((hmem r).mp hl)

theorem freeRegion_limit (r : ℕ) (h : Heap) : (freeRegion r h).limit = h.limit := by
  unfold freeRegion
  split_ifs <;> rfl

theorem freed_apart (h : s.Sound) (hs : s.Apart) (hr : r ∈ s.used) :
    System.Apart ⟨freeRegion r s.heap, s.used.erase r, r :: s.free⟩ := by
  refine ⟨?_, fun x hx => ?_, fun x hx => ?_, ?_, fun x hx => ?_⟩
  · dsimp only
    rw [freeRegion_limit]
    exact hs.limit_pos
  · dsimp only
    rw [freeRegion_limit]
    exact hs.used_bounds x (List.mem_of_mem_erase hx)
  · dsimp only
    rw [freeRegion_limit]
    rcases List.mem_cons.mp hx with rfl | hx
    · exact hs.used_bounds x hr
    · exact hs.free_bounds x hx
  · exact List.nodup_cons.mpr ⟨hs.disjoint r hr, hs.free_nodup⟩
  · rw [List.mem_cons, not_or]
    refine ⟨fun heq => ?_, hs.disjoint x (List.mem_of_mem_erase hx)⟩
    rw [heq] at hx
    exact h.nodup.not_mem_erase hx

/-- Links of regions in use are not those of the ring. -/
theorem written_sound (h : s.Sound) (hs : s.Apart) {heap : Heap}
    (hfree : heap.freeRegions = s.heap.freeRegions)
    (hsame : ∀ r, r ∉ s.used → heap.next r = s.heap.next r ∧ heap.prev r = s.heap.prev r) :
    System.Sound { s with heap := heap } where
  nodup := h.nodup
  ring hne := by
    obtain ⟨l, hmem, hring⟩ := h.ring hne
    refine ⟨l, hmem, ?_⟩
    dsimp only
    rw [hfree]
    exact hring.congr fun r hr => hsame r fun hused => hs.disjoint r hused ((hmem r).mp hr)
  null_iff := by
    dsimp only
    rw [hfree]
    exact h.null_iff

/-- **One call** keeps the ring just when it does not allocate one of several free regions. -/
theorem sparse_iff (h : s.Sound) (hs : s.Apart) (hst : Step s e s') : e.Sparse s ↔ s'.Sound := by
  cases hst with
  | @alloc p limit he =>
    unfold Event.Sparse
    match hfree : s.free with
    | [] =>
      rw [allocRegion_nil h hfree]
      exact iff_of_true (Nat.zero_le 1) (allocated_new h hs he hfree).1
    | [r] =>
      rw [allocRegion_single h hfree]
      exact iff_of_true (Nat.le_refl 1) (allocated_single h hs hfree).1
    | a :: b :: t =>
      have hlen : 1 < s.free.length := by
        rw [hfree]
        exact Nat.succ_lt_succ (Nat.succ_pos _)
      obtain ⟨heq, hin, hhead⟩ := allocRegion_several p limit h hs hlen
      refine iff_of_false (by simp) fun hsound => ?_
      -- `__free_regions` is in no ring of the regions that are still free
      have hnotin : s.heap.freeRegions ∉ s.free.erase s.heap.freeRegions :=
        hs.free_nodup.not_mem_erase
      have hnull : (allocRegion p limit s.heap).2.freeRegions ≠ 0 := by
        rw [hhead]
        exact Nat.ne_of_gt (hs.free_bounds _ hin).1
      obtain ⟨l, hmem, hring⟩ := hsound.ring fun hnil => hnull (hsound.null_iff.mpr hnil)
      have hmem' := (hmem _).mp hring.lasso.mem_closing
      change (allocRegion p limit s.heap).2.freeRegions ∈
        s.free.erase (allocRegion p limit s.heap).1 at hmem'
      rw [hhead, heq] at hmem'
      exact hnotin hmem'
  | free hr => exact iff_of_true trivial (freed_sound h hs hr)
  | write hfree hlimit hsame => exact iff_of_true trivial (written_sound h hs hfree hsame)

theorem apart_step (h : s.Sound) (hs : s.Apart) (hst : Step s e s') (hs' : s'.Sound) :
    s'.Apart := by
  cases hst with
  | @alloc p limit he =>
    have hsparse := (sparse_iff h hs (.alloc he)).mpr hs'
    change s.free.length ≤ 1 at hsparse
    match hfree : s.free with
    | [] =>
      rw [allocRegion_nil h hfree]
      exact (allocated_new h hs he hfree).2
    | [r] =>
      rw [allocRegion_single h hfree]
      exact (allocated_single h hs hfree).2
    | a :: b :: t =>
      rw [hfree] at hsparse
      exact absurd hsparse (by simp)
  | free hr => exact freed_apart h hs hr
  | write hfree hlimit hsame =>
    refine ⟨?_, ?_, ?_, hs.free_nodup, hs.disjoint⟩ <;> dsimp only <;> rw [hlimit]
    · exact hs.limit_pos
    · exact hs.used_bounds
    · exact hs.free_bounds

/-! ## Runs -/

theorem sound_init (h : Heap) : (System.init h).Sound :=
  ⟨List.nodup_nil, fun hne => absurd rfl hne, iff_of_true rfl rfl⟩

theorem apart_init (h : Heap) : (System.init h).Apart :=
  ⟨Nat.succ_pos _, nofun, nofun, List.nodup_nil, nofun⟩

/-- **The ring of free regions**: it is kept in just those runs that never allocate one of several
free regions. -/
theorem sound_of_sparse_run {events : List Event} :
    Runs (Guarded (fun s e => e.Sparse s) Step) (.init h) events s ↔
      Runs (fun s e s' => Step s e s' ∧ s'.Sound) (.init h) events s :=
  Runs.guard_exact (I := fun s => s.Sound ∧ s.Apart)
    (fun _ _ _ hI hst => sparse_iff hI.1 hI.2 hst)
    (fun _ _ _ hI hst hs' => ⟨hs', apart_step hI.1 hI.2 hst hs'⟩) ⟨sound_init h, apart_init h⟩

/-- A heap in which nothing has been allocated. -/
def emptyHeap : Heap :=
  ⟨0, 0, 0, 0, fun _ => 0, fun _ => 0, fun _ => 0, fun _ => 0, fun _ => 0, fun _ => 0, fun _ => 0,
    0⟩

/-- Two regions are allocated and freed, and then one is allocated again. -/
theorem not_sound_of_two_free : ¬∀ (h : Heap) (events : List Event) (s : System),
    Runs Step (.init h) events s → s.Sound := by
  intro hall
  have hstep {events : List Event} {s s' : System} {e : Event}
      (hrun : Runs Step (.init emptyHeap) events s) (hs : s.Apart) (hst : Step s e s') :
      Runs Step (.init emptyHeap) (events ++ [e]) s' ∧ s'.Apart :=
    ⟨hrun.append (.single hst),
      apart_step (hall _ _ _ hrun) hs hst (hall _ _ _ (hrun.append (.single hst)))⟩
  obtain ⟨hrun₁, hs₁⟩ := hstep (.nil _) (apart_init emptyHeap) (.alloc .granted)
  obtain ⟨hrun₂, hs₂⟩ := hstep hrun₁ hs₁ (.alloc .granted)
  obtain ⟨hrun₃, hs₃⟩ := hstep hrun₂ hs₂ (.free List.mem_cons_self)
  obtain ⟨hrun₄, hs₄⟩ := hstep hrun₃ hs₃ (.free List.mem_cons_self)
  have hlast := (sparse_iff (hall _ _ _ hrun₄) hs₄ (.alloc .granted)).mpr
    (hall _ _ _ (hrun₄.append (.single (.alloc .granted))))
  exact Nat.not_succ_le_zero _ (Nat.le_of_succ_le_succ hlast)

end SchemeOs.Collector
