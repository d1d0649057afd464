import Mathlib
import SchemeOs.Machinery.Runs

/-!
# Compiler/Allocation — the objects of a compiled program

`gc_alloc_obj` compares all the units that it needs with those that are left, but takes only as many
as fit in 16 bits.  The object that it gives out after one of more than `0xffff` units lies in that
one.  A size of zero is rounded to a quarter of all the addresses.
-/

namespace SchemeOs.Allocation

/-! ## The functions -/

inductive SchemeType where
  | env
  | cont
  | forward
  | entry
  | values
  | void
  | true
  | false
  | symbol
  | null
  | pair
  | closure
  deriving DecidableEq, Repr

/-- The number of a type in the enumeration. -/
def SchemeType.val : SchemeType → ℕ
  | .env => 0
  | .cont => 1
  | .forward => 2
  | .entry => 3
  | .values => 4
  | .void => 5
  | .true => 6
  | .false => 7
  | .symbol => 8
  | .null => 9
  | .pair => 10
  | .closure => 11

/-- `Scheme_Head_t` -/
structure Head where
  type : BitVec 16
  size : BitVec 16
  deriving DecidableEq, Repr

/-- `_free_space`: where it starts, and its units of four bytes. -/
structure Space where
  start : ℕ
  size : ℕ
  deriving DecidableEq, Repr

/-- What the two functions change: `_free_space`, `g_svm.reg_new` and the heads of objects. -/
structure Runtime where
  freeSpace : Space
  regNew : ℕ
  heads : ℕ → Option Head

/-- `ROUND_SIZE`: the difference is an `int`, the quotient a `size_t`. -/
def roundSize (size : ℤ) : ℕ := ((size - 1) % 2 ^ 32).toNat / 4 + 1

/-- The bytes that `gc_init` asks for. -/
def spaceSize : ℕ := 2 * 2 ^ 20

/-- What `malloc` returns for them: the addresses are not zero and do not wrap. -/
structure Malloc where
  ptr : ℕ
  pos : 0 < ptr
  room : ptr + spaceSize ≤ 2 ^ 32

/-- `gc_init` -/
def gcInit (m : Malloc) (rt : Runtime) : Runtime := { rt with freeSpace := ⟨m.ptr, 2 * 2 ^ 18⟩ }

/-- `gc_alloc_obj` -/
def gcAllocObj (type : SchemeType) (size : ℤ) (rt : Runtime) : Runtime :=
  let obj := rt.freeSpace.start
  let nunits := roundSize size
  if rt.freeSpace.size < nunits then { rt with regNew := 0 }
  else
    { freeSpace := ⟨rt.freeSpace.start + nunits % 2 ^ 16 * 4, rt.freeSpace.size - nunits % 2 ^ 16⟩
      regNew := obj
      heads := Function.update rt.heads obj
        (some ⟨BitVec.ofNat 16 type.val, BitVec.ofInt 16 size⟩) }

/-! ## The system

Any sequence of calls after `gc_init`, with the objects that they gave out, oldest first. -/

/-- A call, with a size that is an `int` and not negative. -/
structure Call where
  type : SchemeType
  size : ℕ
  size_lt : size < 2 ^ 31

/-- The size that was asked for and what `reg_new` held after. -/
structure Result where
  size : ℕ
  ptr : ℕ
  deriving DecidableEq, Repr

/-- The addresses of an object. -/
def Result.range (r : Result) : Set ℕ := if r.ptr = 0 then ∅ else Set.Ico r.ptr (r.ptr + r.size)

/-- The variables, and the results, the last one first. -/
structure System where
  rt : Runtime
  results : List Result

def System.after (s : System) (c : Call) : System :=
  let rt := gcAllocObj c.type c.size s.rt
  ⟨rt, ⟨c.size, rt.regNew⟩ :: s.results⟩

inductive Step : System → Call → System → Prop where
  | call (s : System) (c : Call) : Step s c (s.after c)

/-- What `gc_init` leaves. -/
def initial (m : Malloc) (rt : Runtime) : System := ⟨gcInit m rt, []⟩

/-- The bytes of a result, in whole units. -/
def Result.bytes (r : Result) : ℕ := if r.ptr = 0 then 0 else (r.size + 3) / 4 * 4

/-- The bytes that have been given out. -/
def given (rs : List Result) : ℕ := (rs.map Result.bytes).sum

/-- Every result was `NULL` just when what the earlier ones had left was too small. -/
def NullExact : List Result → Prop
  | [] => True
  | r :: rs => (r.ptr = 0 ↔ spaceSize < given rs + r.size) ∧ NullExact rs

/-- The objects lie in the space that `malloc` returned and are apart, and `reg_new` was `NULL` just
when there was no room. -/
structure System.Sound (m : Malloc) (s : System) : Prop where
  inside : ∀ r ∈ s.results, r.range ⊆ Set.Ico m.ptr (m.ptr + spaceSize)
  disjoint : s.results.Pairwise fun a b => Disjoint a.range b.range
  null : NullExact s.results

/-- The object has more units than fit in 16 bits. -/
def Result.Big (r : Result) : Prop := r.ptr ≠ 0 ∧ 2 ^ 16 ≤ (r.size + 3) / 4

/-- Whether a call does what it should: something is asked for, and there is no big object yet or
the units left are too few. -/
def Call.Fits (s : System) (c : Call) : Prop :=
  c.size ≠ 0 ∧ ((∀ r ∈ s.results, ¬r.Big) ∨ s.rt.freeSpace.size < roundSize c.size)

/-! ## The invariant -/

/-- The units left are those that have not been given out, and begin where the last object ends. -/
structure System.Settled (m : Malloc) (s : System) : Prop where
  start_eq : s.rt.freeSpace.start = m.ptr + given s.results
  size_eq : s.rt.freeSpace.size * 4 + given s.results = spaceSize
  below : ∀ r ∈ s.results, ∀ x ∈ r.range, x < s.rt.freeSpace.start
  small : ∀ r ∈ s.results, ¬r.Big

/-- A big object has been given out, and the space left begins in an object. -/
structure System.Overlaid (m : Malloc) (s : System) : Prop where
  start_ge : m.ptr ≤ s.rt.freeSpace.start
  given_le : given s.results ≤ spaceSize
  size_ge : spaceSize ≤ s.rt.freeSpace.size * 4 + given s.results
  size_le : s.rt.freeSpace.size ≤ spaceSize
  start_mem : ∃ r ∈ s.results, s.rt.freeSpace.start ∈ r.range
  big : ∃ r ∈ s.results, r.Big

variable {m : Malloc} {s s' : System} {c : Call} {r : Result} {rs : List Result} {n x : ℕ}

/-- `ROUND_SIZE` rounds up the sizes that are not zero. -/
theorem roundSize_eq (hpos : 0 < n) (hlt : n < 2 ^ 31) : roundSize n = (n + 3) / 4 := by
  obtain ⟨k, rfl⟩ := Nat.exists_eq_succ_of_ne_zero (Nat.ne_of_gt hpos)
  unfold roundSize
  omega

theorem Result.range_null (h : r.ptr = 0) : r.range = ∅ := if_pos h

theorem Result.mem_range : x ∈ r.range ↔ r.ptr ≠ 0 ∧ r.ptr ≤ x ∧ x < r.ptr + r.size := by
  unfold Result.range
  split_ifs with h
  · exact iff_of_false (Set.notMem_empty x) fun hx => hx.1 h
  · exact (and_iff_right h).symm

theorem Result.bytes_null (h : r.ptr = 0) : r.bytes = 0 := if_pos h

theorem Result.not_big_null (h : r.ptr = 0) : ¬r.Big := fun hbig => hbig.1 h

@[simp] theorem given_cons (r : Result) (rs : List Result) :
    given (r :: rs) = r.bytes + given rs := List.sum_cons

namespace System

/-- A call that is refused changes `reg_new` alone. -/
theorem after_of_lt (h : s.rt.freeSpace.size < roundSize c.size) :
    s.after c = ⟨{ s.rt with regNew := 0 }, ⟨c.size, 0⟩ :: s.results⟩ := by
  unfold System.after gcAllocObj
  rw [if_pos h]

theorem after_of_le (h : roundSize c.size ≤ s.rt.freeSpace.size) :
    (s.after c).results = ⟨c.size, s.rt.freeSpace.start⟩ :: s.results ∧
      (s.after c).rt.freeSpace = ⟨s.rt.freeSpace.start + roundSize c.size % 2 ^ 16 * 4,
        s.rt.freeSpace.size - roundSize c.size % 2 ^ 16⟩ := by
  unfold System.after gcAllocObj
  rw [if_neg (Nat.not_lt.mpr h)]
  exact ⟨rfl, rfl⟩

/-- A further result. -/
theorem sound_cons (hs : s.Sound m) (hres : s'.results = r :: s.results)
    (hin : r.range ⊆ Set.Ico m.ptr (m.ptr + spaceSize))
    (hapart : ∀ b ∈ s.results, Disjoint r.range b.range)
    (hnull : r.ptr = 0 ↔ spaceSize < given s.results + r.size) : s'.Sound m where
  inside := by
    rw [hres]
    exact List.forall_mem_cons.mpr ⟨hin, hs.inside⟩
  disjoint := by
    rw [hres]
    exact List.pairwise_cons.mpr ⟨hapart, hs.disjoint⟩
  null := by
    rw [hres]
    exact ⟨hnull, hs.null⟩

/-! ## The three kinds of call

Nothing is asked for, the units left are too few, or an object is given out, whose size in units
may not fit its 16 bits. -/

/-- Nothing is asked for: the call is refused although there is room. -/
theorem not_sound_of_zero (hle : s.rt.freeSpace.size ≤ spaceSize)
    (hgiven : given s.results ≤ spaceSize) (hc : c.size = 0) : ¬(s.after c).Sound m := by
  have hlt : s.rt.freeSpace.size < roundSize c.size := by
    rw [hc]
    exact hle.trans_lt (by decide)
  rw [after_of_lt hlt]
  intro h
  have htight : spaceSize < given s.results + c.size := h.null.1.mp rfl
  rw [hc] at htight
  exact Nat.not_lt.mpr hgiven htight

/-- The call is refused, and there is no room. -/
theorem sound_of_refused (hs : s.Sound m)
    (hge : spaceSize ≤ s.rt.freeSpace.size * 4 + given s.results) (hc : c.size ≠ 0)
    (hlt : s.rt.freeSpace.size < roundSize c.size) : (s.after c).Sound m := by
  have hround := roundSize_eq (Nat.pos_of_ne_zero hc) c.size_lt
  rw [after_of_lt hlt]
  have hnull : (⟨c.size, 0⟩ : Result).range = ∅ := Result.range_null rfl
  refine sound_cons hs rfl ?_ (fun b _ => ?_) (iff_of_true rfl ?_)
  · rw [hnull]
    exact Set.empty_subset _
  · rw [hnull]
    exact Set.empty_disjoint _
  · change spaceSize < given s.results + c.size
    omega

theorem Settled.start_ne (h : s.Settled m) : s.rt.freeSpace.start ≠ 0 := by
  rw [h.start_eq]
  exact Nat.ne_of_gt (m.pos.trans_le (Nat.le_add_right _ _))

/-- What is refused moves nothing. -/
theorem Settled.refused (h : s.Settled m) (hlt : s.rt.freeSpace.size < roundSize c.size) :
    (s.after c).Settled m := by
  rw [after_of_lt hlt]
  have hgiven : given (⟨c.size, 0⟩ :: s.results) = given s.results := by
    rw [given_cons, Result.bytes_null rfl, Nat.zero_add]
  refine ⟨?_, ?_, List.forall_mem_cons.mpr ⟨fun x hx => ?_, h.below⟩,
    List.forall_mem_cons.mpr ⟨Result.not_big_null rfl, h.small⟩⟩
  · rw [hgiven]
    exact h.start_eq
  · rw [hgiven]
    exact h.size_eq
  · rw [Result.range_null rfl] at hx
    exact absurd hx (Set.notMem_empty x)

theorem Overlaid.refused (h : s.Overlaid m) (hlt : s.rt.freeSpace.size < roundSize c.size) :
    (s.after c).Overlaid m := by
  rw [after_of_lt hlt]
  have hgiven : given (⟨c.size, 0⟩ :: s.results) = given s.results := by
    rw [given_cons, Result.bytes_null rfl, Nat.zero_add]
  obtain ⟨r, hr, hmem⟩ := h.start_mem
  obtain ⟨b, hb, hbig⟩ := h.big
  refine ⟨h.start_ge, ?_, ?_, h.size_le, ⟨r, List.mem_cons_of_mem _ hr, hmem⟩,
    ⟨b, List.mem_cons_of_mem _ hb, hbig⟩⟩
  · rw [hgiven]
    exact h.given_le
  · rw [hgiven]
    exact h.size_ge

/-- No big object has been given out: the call is served behind the last one. -/
theorem Settled.sound_of_served (hs : s.Sound m) (h : s.Settled m) (hc : c.size ≠ 0)
    (hle : roundSize c.size ≤ s.rt.freeSpace.size) : (s.after c).Sound m := by
  obtain ⟨hres, -⟩ := after_of_le hle
  have hround := roundSize_eq (Nat.pos_of_ne_zero hc) c.size_lt
  have hstart := h.start_eq
  have hsize := h.size_eq
  have hptr : s.rt.freeSpace.start ≠ 0 := h.start_ne
  refine sound_cons hs hres (fun x hx => ?_) (fun b hb => ?_) (iff_of_false hptr ?_)
  · obtain ⟨-, hlow, hhigh⟩ : _ ∧ s.rt.freeSpace.start ≤ x ∧ x < s.rt.freeSpace.start + c.size :=
      Result.mem_range.mp hx
    exact ⟨by omega, by omega⟩
  · refine Set.disjoint_left.mpr fun x hx hxb => ?_
    exact Nat.not_le.mpr (h.below b hb x hxb) (Result.mem_range.mp hx).2.1
  · change ¬spaceSize < given s.results + c.size
    omega

/-- An object whose units fit in 16 bits: the space goes on behind it. -/
theorem Settled.served_small (h : s.Settled m) (hc : c.size ≠ 0)
    (hle : roundSize c.size ≤ s.rt.freeSpace.size) (hsmall : (c.size + 3) / 4 < 2 ^ 16) :
    (s.after c).Settled m := by
  obtain ⟨hres, hfree⟩ := after_of_le hle
  have hround := roundSize_eq (Nat.pos_of_ne_zero hc) c.size_lt
  have hmask : roundSize c.size % 2 ^ 16 = (c.size + 3) / 4 := by omega
  have hstart := h.start_eq
  have hsize := h.size_eq
  have hgiven : given (s.after c).results = (c.size + 3) / 4 * 4 + given s.results := by
    rw [hres, given_cons]
    exact congrArg (· + given s.results) (if_neg h.start_ne)
  rw [hmask] at hfree
  constructor
  · rw [hgiven, hfree]
    change s.rt.freeSpace.start + _ = _
    omega
  · rw [hgiven, hfree]
    change (s.rt.freeSpace.size - _) * 4 + _ = _
    omega
  · rw [hres, hfree]
    refine List.forall_mem_cons.mpr ⟨fun x hx => ?_, fun b hb x hx => ?_⟩
    · have hhigh : x < s.rt.freeSpace.start + c.size := (Result.mem_range.mp hx).2.2
      change x < s.rt.freeSpace.start + _
      omega
    · exact (h.below b hb x hx).trans_le (Nat.le_add_right _ _)
  · rw [hres]
    exact List.forall_mem_cons.mpr ⟨fun hbig => Nat.not_le.mpr hsmall hbig.2, h.small⟩

/-- A big object: fewer units are taken than it has, and the space goes on within it. -/
theorem Settled.served_big (h : s.Settled m) (hc : c.size ≠ 0)
    (hle : roundSize c.size ≤ s.rt.freeSpace.size) (hbig : 2 ^ 16 ≤ (c.size + 3) / 4) :
    (s.after c).Overlaid m := by
  obtain ⟨hres, hfree⟩ := after_of_le hle
  have hround := roundSize_eq (Nat.pos_of_ne_zero hc) c.size_lt
  have hmask : roundSize c.size % 2 ^ 16 + 2 ^ 16 ≤ (c.size + 3) / 4 := by omega
  have hstart := h.start_eq
  have hsize := h.size_eq
  have hgiven : given (s.after c).results = (c.size + 3) / 4 * 4 + given s.results := by
    rw [hres, given_cons]
    exact congrArg (· + given s.results) (if_neg h.start_ne)
  have hmem : ⟨c.size, s.rt.freeSpace.start⟩ ∈ (s.after c).results := by
    rw [hres]
    exact List.mem_cons_self
  refine ⟨?_, ?_, ?_, ?_, ⟨_, hmem, ?_⟩, ⟨_, hmem, h.start_ne, hbig⟩⟩
  · rw [hfree]
    change m.ptr ≤ s.rt.freeSpace.start + _
    omega
  · rw [hgiven]
    omega
  · rw [hgiven, hfree]
    change spaceSize ≤ (s.rt.freeSpace.size - _) * 4 + _
    omega
  · rw [hfree]
    change s.rt.freeSpace.size - _ ≤ spaceSize
    omega
  · rw [hfree]
    refine Result.mem_range.mpr ⟨h.start_ne, Nat.le_add_right _ _, ?_⟩
    change s.rt.freeSpace.start + _ < s.rt.freeSpace.start + c.size
    omega

/-- After a big object a call that is served gives out what lies in another object. -/
theorem Overlaid.not_sound (h : s.Overlaid m) (hc : c.size ≠ 0)
    (hle : roundSize c.size ≤ s.rt.freeSpace.size) : ¬(s.after c).Sound m := by
  obtain ⟨hres, -⟩ := after_of_le hle
  obtain ⟨b, hb, hmem⟩ := h.start_mem
  have hptr : s.rt.freeSpace.start ≠ 0 := Nat.ne_of_gt (m.pos.trans_le h.start_ge)
  intro hs
  have hdisj := hs.disjoint
  rw [hres] at hdisj
  refine Set.disjoint_left.mp ((List.pairwise_cons.mp hdisj).1 b hb) ?_ hmem
  exact Result.mem_range.mpr ⟨hptr, Nat.le_refl _,
    Nat.lt_add_of_pos_right (Nat.pos_of_ne_zero hc)⟩

/-- The space after any of the calls that do what they should. -/
def Placed (m : Malloc) (s : System) : Prop := s.Settled m ∨ s.Overlaid m

theorem Placed.given_le (h : s.Placed m) : given s.results ≤ spaceSize :=
  h.elim (fun h => Nat.le.intro ((Nat.add_comm _ _).trans h.size_eq)) fun h => h.given_le

theorem Placed.size_ge (h : s.Placed m) :
    spaceSize ≤ s.rt.freeSpace.size * 4 + given s.results :=
  h.elim (fun h => h.size_eq.ge) fun h => h.size_ge

theorem Placed.size_le (h : s.Placed m) : s.rt.freeSpace.size ≤ spaceSize := by
  rcases h with h | h
  · have hsize := h.size_eq
    omega
  · exact h.size_le

/-- **One call** does what it should just when it fits. -/
theorem fits_iff (hs : s.Sound m) (hpl : s.Placed m) :
    (c.Fits s ↔ (s.after c).Sound m) ∧ ((s.after c).Sound m → (s.after c).Placed m) := by
  by_cases hc : c.size = 0
  · have hnot : ¬(s.after c).Sound m := not_sound_of_zero hpl.size_le hpl.given_le hc
    exact ⟨iff_of_false (fun h => h.1 hc) hnot, fun h => absurd h hnot⟩
  · rcases Nat.lt_or_ge s.rt.freeSpace.size (roundSize c.size) with hlt | hle
    · refine ⟨iff_of_true ⟨hc, .inr hlt⟩ (sound_of_refused hs hpl.size_ge hc hlt), fun _ => ?_⟩
      exact hpl.imp (fun h => h.refused hlt) fun h => h.refused hlt
    · rcases hpl with h | h
      · refine ⟨iff_of_true ⟨hc, .inl h.small⟩ (h.sound_of_served hs hc hle), fun _ => ?_⟩
        rcases Nat.lt_or_ge ((c.size + 3) / 4) (2 ^ 16) with hsmall | hbig
        · exact .inl (h.served_small hc hle hsmall)
        · exact .inr (h.served_big hc hle hbig)
      · have hnot := h.not_sound hc hle
        refine ⟨iff_of_false (fun hfits => ?_) hnot, fun h => absurd h hnot⟩
        obtain ⟨b, hb, hbig⟩ := h.big
        exact hfits.2.elim (fun hsmall => hsmall b hb hbig) (Nat.not_lt.mpr hle)

end System

/-! ## Runs -/

theorem initial_sound (m : Malloc) (rt : Runtime) : (initial m rt).Sound m := ⟨nofun, .nil, trivial⟩

/-- `gc_init` leaves the whole space. -/
theorem initial_settled (m : Malloc) (rt : Runtime) : (initial m rt).Settled m :=
  ⟨rfl, (by decide : 2 * 2 ^ 18 * 4 + 0 = spaceSize), nofun, nofun⟩

/-- **The objects of a compiled program**: they are apart and in the space, and `reg_new` is `NULL`
when there is no room, in just those runs in which every call fits. -/
theorem sound_of_fitting_calls (m : Malloc) (rt : Runtime) (calls : List Call) (s : System) :
    Runs (Guarded (fun s c => c.Fits s) Step) (initial m rt) calls s ↔
      Runs (fun s c (s' : System) => Step s c s' ∧ s'.Sound m) (initial m rt) calls s := by
  refine Runs.guard_exact (I := fun s : System => s.Sound m ∧ s.Placed m) ?_ ?_
    ⟨initial_sound m rt, .inl (initial_settled m rt)⟩
  · rintro s c s' hI ⟨⟩
    exact (System.fits_iff hI.1 hI.2).1
  · rintro s c s' hI ⟨⟩ hs'
    exact ⟨hs', (System.fits_iff hI.1 hI.2).2 hs'⟩

/-- A second object lies in a big one. -/
theorem not_sound_of_fitting_calls : ¬∀ (m : Malloc) (rt : Runtime) (calls : List Call)
    (s : System), Runs Step (initial m rt) calls s → s.Sound m := by
  intro h
  let m : Malloc := ⟨4096, by decide, by decide⟩
  let s := initial m ⟨⟨0, 0⟩, 0, fun _ => none⟩
  let big : Call := ⟨.pair, 2 ^ 18, by decide⟩
  let next : Call := ⟨.pair, 4, by decide⟩
  have hround : roundSize big.size = (big.size + 3) / 4 := roundSize_eq (by decide) big.size_lt
  have hle : roundSize big.size ≤ s.rt.freeSpace.size := by
    rw [hround]
    decide
  have hover : (s.after big).Overlaid m :=
    (initial_settled m _).served_big (by decide) hle (by decide)
  have hnext : roundSize next.size ≤ (s.after big).rt.freeSpace.size := by
    rw [(System.after_of_le hle).2, hround, roundSize_eq (by decide) next.size_lt]
    decide
  exact hover.not_sound (by decide) hnext
    (h m _ [big, next] _ (.cons (.call _ _) (.single (.call _ _))))

end SchemeOs.Allocation
