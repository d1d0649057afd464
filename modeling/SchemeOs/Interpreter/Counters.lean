import Mathlib.Data.Finset.Card
import Mathlib.Data.Finset.Dedup
import Mathlib.Data.Finset.Insert
import Mathlib.Data.Finset.SDiff
import Mathlib.Data.List.Infix
import Mathlib.Logic.Function.Basic
import Mathlib.Tactic.SplitIfs
import SchemeOs.Interpreter.Environment
import SchemeOs.Machinery.Ints

/-!
# Interpreter/Counters — the counters of a binding record

A binding record counts its slots in two shorts, and `scheme_define_var` asks for more slots when
the count in use equals the count there are.  Here one record is followed from `scheme_extend_env`
through any number of definitions, with the arithmetic of the C types.
-/

namespace SchemeOs.Counters

variable {ν δ : Type*}

/-! ## The record

The counters of an environment, without the slots' contents: two signed 16-bit words. -/

/-- `Scheme_bindings_t` with its block of slots: `requested` is the count that the size of the block
was computed from, and a slot that was not written holds nothing. -/
structure Record (ν δ : Type*) where
  bindCnt : ℤ
  maxBind : ℤ
  requested : ℤ
  binds : ℕ → Option (ν × δ)

/-- `sizeof(struct Binding)` -/
def bindingSize : ℤ := 8

/-- The slots of the block: `sizeof(struct Binding) * requested` is a `size_t`. -/
def Record.slots (r : Record ν δ) : ℤ := bindingSize * r.requested % 2 ^ 32 / bindingSize

/-- The record of `scheme_extend_env`, for the parameters, a rest parameter included, with their
values. -/
def schemeExtendEnv (pairs : List (ν × δ)) : Record ν δ :=
  let cnt := toInt pairs.length
  let max := toInt (toInt (cnt + bindingSlotsSize - 1) / bindingSlotsSize * bindingSlotsSize)
  { bindCnt := toShort cnt, maxBind := toShort max, requested := max, binds := fun i => pairs[i]? }

/-- The block that `scheme_define_var` allocates, with the `i` slots in use copied. -/
def Record.grow (r : Record ν δ) (i : ℕ) : Record ν δ :=
  let max := toShort (r.maxBind + bindingSlotsSize)
  { r with maxBind := max, requested := max, binds := fun j => if j < i then r.binds j else none }

/-- Write the slot `i`. -/
def Record.write (r : Record ν δ) (i : ℕ) (var : ν) (val : δ) : Record ν δ :=
  { r with binds := Function.update r.binds i (some (var, val)) }

section Define

variable [DecidableEq ν]

/-- The slot in use that holds `var`, if there is one. -/
def Record.slotOf (r : Record ν δ) (var : ν) : Option ℕ :=
  (List.range r.bindCnt.toNat).find? fun i => (r.binds i).any fun b => b.1 = var

/-- `scheme_define_var` -/
def schemeDefineVar (r : Record ν δ) (var : ν) (val : δ) : Record ν δ :=
  match r.slotOf var with
  | some i => r.write i var val
  | none =>
    let i := r.bindCnt.toNat
    let r := if i = r.maxBind then r.grow i else r
    { r with bindCnt := toShort (r.bindCnt + 1) }.write i var val

/-- The record after the definitions `defs` in the frame of `pairs`. -/
def definedIn (pairs defs : List (ν × δ)) : Record ν δ :=
  defs.foldl (fun r d => schemeDefineVar r d.1 d.2) (schemeExtendEnv pairs)

end Define

/-- The counters are in order, count the slots there are and bound the slots written, and no size
was computed from a negative count. -/
structure Record.Sound (r : Record ν δ) : Prop where
  cnt_nonneg : 0 ≤ r.bindCnt
  cnt_le : r.bindCnt ≤ r.maxBind
  slots : r.slots = r.maxBind
  written : ∀ i b, r.binds i = some b → (i : ℤ) < r.maxBind
  requested : 0 ≤ r.requested

/-! ## The invariant

As long as no counter has wrapped, the block has room for the slots in use, and grows in time. -/

/-- The largest multiple of `BINDING_SLOTS_SIZE` that a short holds. -/
def maxSlots : ℕ := 32736

/-- The record counts `n` slots, those in use, with the names `names`. -/
structure Record.Counts (r : Record ν δ) (n : ℕ) (names : Set ν) : Prop where
  cnt : r.bindCnt = n
  max : r.maxBind = ((n + 31) / 32 * 32 : ℕ)
  requested : r.requested = r.maxBind
  used : ∀ i, (r.binds i).isSome ↔ i < n
  names : ∀ v, (∃ i val, r.binds i = some (v, val)) ↔ v ∈ names

variable {r : Record ν δ} {n i : ℕ} {names : Set ν} {var : ν} {val : δ}

/-- **Counters that are right are sound**, as long as a short holds them. -/
theorem Record.Counts.sound (hr : r.Counts n names) (hn : n ≤ maxSlots) : r.Sound := by
  have hmax := hr.max
  have hcnt := hr.cnt
  have hreq := hr.requested
  unfold maxSlots at hn
  refine ⟨by omega, by omega, ?_, fun i b hb => ?_, by omega⟩
  · rw [Record.slots, bindingSize]
    omega
  · have := (hr.used i).mp (by rw [hb]; rfl)
    omega

theorem counts_extend (pairs : List (ν × δ)) (hn : pairs.length ≤ maxSlots) :
    (schemeExtendEnv pairs).Counts pairs.length {v | v ∈ pairs.map Prod.fst} := by
  unfold maxSlots at hn
  have hcnt : toInt pairs.length = pairs.length := toInt_eq (by omega) (by omega)
  have hmax : toInt (toInt (pairs.length + bindingSlotsSize - 1) / bindingSlotsSize *
      bindingSlotsSize) = ((pairs.length + 31) / 32 * 32 : ℕ) := by
    unfold toInt bindingSlotsSize
    omega
  constructor
  · change toShort (toInt pairs.length) = _
    rw [hcnt, toShort_eq (by omega) (by omega)]
  · change toShort (toInt (toInt (toInt pairs.length + _ - 1) / _ * _)) = _
    rw [hcnt, hmax, toShort_eq (by omega) (by omega)]
  · change toInt (toInt (toInt pairs.length + _ - 1) / _ * _) = toShort _
    rw [hcnt, hmax, toShort_eq (by omega) (by omega)]
  · intro i
    simp [schemeExtendEnv]
  · intro v
    simp only [schemeExtendEnv, List.getElem?_eq_some_iff, Set.mem_ofPred_eq, List.mem_map]
    constructor
    · rintro ⟨i, val, hlt, heq⟩
      exact ⟨_, heq ▸ List.getElem_mem hlt, rfl⟩
    · rintro ⟨⟨v', val⟩, hmem, rfl⟩
      obtain ⟨i, hlt, heq⟩ := List.getElem_of_mem hmem
      exact ⟨i, val, hlt, heq⟩

/-- The parameters that a sound record counts. -/
theorem length_le_of_sound {pairs : List (ν × δ)} (hs : (schemeExtendEnv pairs).Sound) :
    pairs.length ≤ maxSlots := by
  by_contra hlt
  have hmax : (schemeExtendEnv pairs).maxBind < 2 ^ 15 := toShort_lt _
  unfold maxSlots at hlt
  by_cases hlen : pairs.length ≤ 32767
  · -- the count of slots is negative
    have hcnt : toInt pairs.length = pairs.length := toInt_eq (by omega) (by omega)
    have hle := hs.cnt_nonneg.trans hs.cnt_le
    change 0 ≤ toShort (toInt (toInt (toInt pairs.length + _ - 1) / _ * _)) at hle
    rw [hcnt] at hle
    unfold toShort toInt bindingSlotsSize at hle
    omega
  · -- no short is above all indices
    have hget : (schemeExtendEnv pairs).binds 32767 = some pairs[32767] :=
      List.getElem?_eq_getElem (by omega)
    have := hs.written _ _ hget
    omega

/-- The block in which a new name finds a slot: the slots in use are the same in a larger one. -/
theorem room_of_counts (hr : r.Counts n names) (hn : n < 32736) :
    (if n % 32 = 0 then r.grow n else r).binds = r.binds ∧
      (if n % 32 = 0 then r.grow n else r).maxBind = ((n + 1 + 31) / 32 * 32 : ℕ) ∧
      (if n % 32 = 0 then r.grow n else r).requested =
        (if n % 32 = 0 then r.grow n else r).maxBind := by
  have hmax := hr.max
  split_ifs with hfull
  · have hshort : toShort (r.maxBind + bindingSlotsSize) = r.maxBind + 32 :=
      toShort_eq (by unfold bindingSlotsSize; omega) (by unfold bindingSlotsSize; omega)
    refine ⟨funext fun j => ?_, ?_, rfl⟩
    · by_cases hj : j < n
      · exact if_pos hj
      · have hnone : r.binds j = none := by
          rw [← Option.not_isSome_iff_eq_none, hr.used j]
          exact hj
        rw [hnone]
        exact if_neg hj
    · change toShort (r.maxBind + bindingSlotsSize) = _
      rw [hshort]
      omega
  · refine ⟨rfl, ?_, hr.requested⟩
    omega

theorem maxBind_write : (r.write i var val).maxBind = r.maxBind := rfl

theorem requested_write : (r.write i var val).requested = r.requested := rfl

theorem binds_write : (r.write i var val).binds = Function.update r.binds i (some (var, val)) := rfl

section Define

variable [DecidableEq ν]

theorem slotOf_eq_some (h : r.slotOf var = some i) : ∃ val, r.binds i = some (var, val) := by
  have := List.find?_some h
  obtain ⟨⟨v, val⟩, hb, hv⟩ := (Option.any_eq_true _ _).mp this
  obtain rfl : v = var := of_decide_eq_true hv
  exact ⟨val, hb⟩

/-- A name is found exactly when it is there. -/
theorem slotOf_eq_none_iff (hr : r.Counts n names) : r.slotOf var = none ↔ var ∉ names := by
  rw [← hr.names var]
  constructor
  · rintro h ⟨i, val, hb⟩
    have hlt := (hr.used i).mp (by rw [hb]; rfl)
    have := List.find?_eq_none.mp h i (by rw [List.mem_range, hr.cnt]; omega)
    simp [hb] at this
  · intro h
    refine List.find?_eq_none.mpr fun i _ hi => h ?_
    obtain ⟨⟨v, val⟩, hb, hv⟩ := (Option.any_eq_true _ _).mp hi
    obtain rfl : v = var := of_decide_eq_true hv
    exact ⟨i, val, hb⟩

/-- A definition of a name that is there counts nothing. -/
theorem counts_redefine (hr : r.Counts n names) (hmem : var ∈ names) :
    (schemeDefineVar r var val).Counts n names := by
  cases hslot : r.slotOf var with
  | none => exact absurd hmem ((slotOf_eq_none_iff hr).mp hslot)
  | some i =>
    obtain ⟨val', hb⟩ := slotOf_eq_some hslot
    have hlt := (hr.used i).mp (by rw [hb]; rfl)
    have heq : schemeDefineVar r var val = r.write i var val := by rw [schemeDefineVar, hslot]
    rw [heq]
    refine ⟨hr.cnt, hr.max, hr.requested, fun j => ?_, fun v => ?_⟩
    · by_cases hj : j = i
      · subst hj
        simp [binds_write, hlt]
      · rw [binds_write, Function.update_of_ne hj]
        exact hr.used j
    · rw [← hr.names v, binds_write]
      constructor
      · rintro ⟨j, w, hj⟩
        by_cases hji : j = i
        · subst hji
          simp only [Function.update_self, Option.some.injEq, Prod.mk.injEq] at hj
          exact ⟨j, val', by rw [hb, hj.1]⟩
        · exact ⟨j, w, by rwa [Function.update_of_ne hji] at hj⟩
      · rintro ⟨j, w, hj⟩
        by_cases hji : j = i
        · subst hji
          obtain ⟨rfl, -⟩ := Prod.mk.inj (Option.some.inj (hb.symm.trans hj))
          exact ⟨j, val, Function.update_self ..⟩
        · exact ⟨j, w, by rwa [Function.update_of_ne hji]⟩

/-- The counters after the definition of a new name. -/
theorem define_new (hr : r.Counts n names) (hmem : var ∉ names) :
    schemeDefineVar r var val =
      { if n % 32 = 0 then r.grow n else r with bindCnt := toShort (n + 1) }.write n var val := by
  have hmax := hr.max
  rw [schemeDefineVar, (slotOf_eq_none_iff hr).mpr hmem]
  have hi : r.bindCnt.toNat = n := by rw [hr.cnt]; exact Int.toNat_natCast n
  simp only [hi]
  by_cases hfull : n % 32 = 0
  · rw [if_pos (by omega), if_pos hfull, ← hr.cnt]
    rfl
  · rw [if_neg (by omega), if_neg hfull, hr.cnt]

/-- **A definition of a new name counts one more**, as long as a short holds it. -/
theorem counts_define (hr : r.Counts n names) (hmem : var ∉ names) (hn : n < maxSlots) :
    (schemeDefineVar r var val).Counts (n + 1) (insert var names) := by
  unfold maxSlots at hn
  rw [define_new hr hmem]
  obtain ⟨hbinds, hgmax, hgreq⟩ := room_of_counts hr hn
  generalize (if n % 32 = 0 then r.grow n else r) = g at hbinds hgmax hgreq ⊢
  refine ⟨?_, ?_, ?_, fun j => ?_, fun v => ?_⟩
  · exact (toShort_eq (by omega) (by omega)).trans (Int.natCast_succ n).symm
  · rw [maxBind_write]
    exact hgmax
  · rw [maxBind_write, requested_write]
    exact hgreq
  · rw [binds_write]
    by_cases hj : j = n
    · subst hj
      simp
    · rw [Function.update_of_ne hj, hbinds, hr.used j]
      omega
  · rw [Set.mem_insert_iff, ← hr.names v, binds_write, hbinds]
    constructor
    · rintro ⟨j, w, hj⟩
      by_cases hjn : j = n
      · subst hjn
        simp only [Function.update_self, Option.some.injEq, Prod.mk.injEq] at hj
        exact .inl hj.1.symm
      · exact .inr ⟨j, w, by rwa [Function.update_of_ne hjn] at hj⟩
    · rintro (rfl | ⟨j, w, hj⟩)
      · exact ⟨n, val, Function.update_self ..⟩
      · have hjn : j ≠ n := fun heq => by
          have := (hr.used j).mp (by rw [hj]; rfl)
          omega
        exact ⟨j, w, by rwa [Function.update_of_ne hjn]⟩

/-- One name too many: the count of slots becomes negative. -/
theorem not_sound_define (hr : r.Counts maxSlots names) (hmem : var ∉ names) :
    ¬(schemeDefineVar r var val).Sound := by
  intro hs
  have hle := hs.cnt_nonneg.trans hs.cnt_le
  have hmax := hr.max
  rw [define_new hr hmem, if_pos (by decide)] at hle
  change 0 ≤ toShort (r.maxBind + bindingSlotsSize) at hle
  rw [hmax] at hle
  exact absurd hle (by decide)

/-! ## Runs -/

/-- The names of `pairs`, each once. -/
def namesOf (pairs : List (ν × δ)) : Finset ν := (pairs.map Prod.fst).toFinset

/-- The slots that the frame needs: one for each parameter, and one for each name defined that is
not a parameter. -/
def slotsNeeded (pairs defs : List (ν × δ)) : ℕ :=
  pairs.length + (namesOf defs \ namesOf pairs).card

theorem definedIn_append (pairs defs : List (ν × δ)) (d : ν × δ) :
    definedIn pairs (defs ++ [d]) = schemeDefineVar (definedIn pairs defs) d.1 d.2 := by
  rw [definedIn, List.foldl_append]
  rfl

theorem namesOf_append (defs : List (ν × δ)) (d : ν × δ) :
    namesOf (defs ++ [d]) = insert d.1 (namesOf defs) := by
  ext v
  simp [namesOf]

theorem slotsNeeded_append_of_mem {pairs defs : List (ν × δ)} {d : ν × δ}
    (h : d.1 ∈ namesOf pairs ∪ namesOf defs) :
    slotsNeeded pairs (defs ++ [d]) = slotsNeeded pairs defs := by
  rw [slotsNeeded, namesOf_append, slotsNeeded]
  rcases Finset.mem_union.mp h with h | h
  · rw [Finset.insert_sdiff_of_mem _ h]
  · rw [Finset.insert_eq_of_mem h]

theorem slotsNeeded_append_of_notMem {pairs defs : List (ν × δ)} {d : ν × δ}
    (h : d.1 ∉ namesOf pairs ∪ namesOf defs) :
    slotsNeeded pairs (defs ++ [d]) = slotsNeeded pairs defs + 1 := by
  rw [Finset.mem_union, not_or] at h
  rw [slotsNeeded, namesOf_append, slotsNeeded, Finset.insert_sdiff_of_notMem _ h.1,
    Finset.card_insert_of_notMem fun hmem => h.2 (Finset.mem_sdiff.mp hmem).1]
  rfl

theorem slotsNeeded_mono {pairs defs defs' : List (ν × δ)} (h : defs' <+: defs) :
    slotsNeeded pairs defs' ≤ slotsNeeded pairs defs := by
  refine Nat.add_le_add_left (Finset.card_le_card (Finset.sdiff_subset_sdiff ?_ le_rfl)) _
  intro v hv
  rw [namesOf, List.mem_toFinset] at hv ⊢
  exact (h.map Prod.fst).subset hv

/-- **The run lemma**: the counters are right as long as a short holds the slots that are needed. -/
theorem counts_definedIn (pairs defs : List (ν × δ)) (hn : slotsNeeded pairs defs ≤ maxSlots) :
    (definedIn pairs defs).Counts (slotsNeeded pairs defs)
      (namesOf pairs ∪ namesOf defs : Finset ν) := by
  induction defs using List.reverseRecOn with
  | nil =>
    have hlen : slotsNeeded pairs [] = pairs.length := by simp [slotsNeeded, namesOf]
    rw [hlen] at hn ⊢
    have hnames : ((namesOf pairs ∪ namesOf ([] : List (ν × δ)) : Finset ν) : Set ν) =
        {v | v ∈ pairs.map Prod.fst} := by
      ext v
      simp [namesOf]
    rw [hnames]
    exact counts_extend pairs hn
  | append_singleton defs d ih =>
    have hr := ih ((slotsNeeded_mono (List.prefix_append defs [d])).trans hn)
    rw [definedIn_append, namesOf_append, Finset.union_insert]
    by_cases hmem : d.1 ∈ namesOf pairs ∪ namesOf defs
    · rw [slotsNeeded_append_of_mem hmem, Finset.insert_eq_of_mem hmem]
      exact counts_redefine hr (Finset.mem_coe.mpr hmem)
    · rw [slotsNeeded_append_of_notMem hmem] at hn ⊢
      rw [Finset.coe_insert]
      exact counts_define hr (fun h => hmem (Finset.mem_coe.mp h)) hn

/-- The slots that a frame needs whose record stays sound. -/
theorem slotsNeeded_le_of_sound {pairs defs : List (ν × δ)}
    (hs : ∀ defs', defs' <+: defs → (definedIn pairs defs').Sound) :
    slotsNeeded pairs defs ≤ maxSlots := by
  induction defs using List.reverseRecOn with
  | nil =>
    have hlen : slotsNeeded pairs [] = pairs.length := by simp [slotsNeeded, namesOf]
    rw [hlen]
    exact length_le_of_sound (hs [] List.prefix_rfl)
  | append_singleton defs d ih =>
    have hle := ih fun defs' h => hs defs' (h.trans (List.prefix_append defs [d]))
    by_cases hmem : d.1 ∈ namesOf pairs ∪ namesOf defs
    · rwa [slotsNeeded_append_of_mem hmem]
    · rw [slotsNeeded_append_of_notMem hmem]
      refine lt_of_le_of_ne hle fun heq => ?_
      have hr := counts_definedIn pairs defs hle
      have hsound := hs _ List.prefix_rfl
      rw [heq] at hr
      rw [definedIn_append] at hsound
      exact not_sound_define hr (fun h => hmem (Finset.mem_coe.mp h)) hsound

/-- **The counters stay right** in every state of a frame exactly when it needs no more slots than
the largest multiple of `BINDING_SLOTS_SIZE` that a short holds. -/
theorem sound_iff (pairs defs : List (ν × δ)) :
    (∀ defs', defs' <+: defs → (definedIn pairs defs').Sound) ↔
      slotsNeeded pairs defs ≤ maxSlots :=
  ⟨slotsNeeded_le_of_sound, fun hn _ h =>
    (counts_definedIn _ _ ((slotsNeeded_mono h).trans hn)).sound ((slotsNeeded_mono h).trans hn)⟩

/-- Definitions of `maxSlots + 1` names in an empty frame. -/
theorem not_sound_names : ¬∀ pairs defs : List (ℕ × Unit), (definedIn pairs defs).Sound := by
  intro hall
  have hle : slotsNeeded [] ((List.range (maxSlots + 1)).map fun v => (v, ())) ≤ maxSlots :=
    slotsNeeded_le_of_sound fun defs' _ => hall [] defs'
  have hnames : namesOf ((List.range (maxSlots + 1)).map fun v => (v, ())) =
      Finset.range (maxSlots + 1) := by
    ext v
    simp [namesOf]
  rw [slotsNeeded, hnames, namesOf, List.map_nil, List.toFinset_nil, Finset.sdiff_empty,
    Finset.card_range, List.length_nil] at hle
  omega

end Define

end SchemeOs.Counters
