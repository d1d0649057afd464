import Mathlib

/-!
# Machinery/StringInstructions — the repeated string instructions on a memory of bytes

Addresses have 32 bits and wrap around.  With the direction flag clear, `rep movsb` copies bytes one
after the other, upwards: where the destination starts `d` bytes above the source, it is the first
`d` bytes of the source that it copies, over and over.  `rep stosb` and `rep stosl` fill a range
with the bytes of a register.
-/

namespace SchemeOs

abbrev Addr := BitVec 32

abbrev Byte := BitVec 8

/-- A byte for each address. -/
abbrev Bytes := Addr → Byte

variable {mem : Bytes} {a edi esi x : Addr} {al : Byte} {i m n : ℕ}

/-! ## Ranges of addresses -/

/-- `x` is one of the `n` addresses from `a` on. -/
def InRange (a : Addr) (n : ℕ) (x : Addr) : Prop := (x - a).toNat < n

instance : Decidable (InRange a n x) := inferInstanceAs (Decidable (_ < _))

theorem toNat_add_sub (h : i < 2 ^ 32) : (a + BitVec.ofNat 32 i - a).toNat = i := by
  rw [BitVec.add_comm, BitVec.add_sub_cancel, BitVec.toNat_ofNat, Nat.mod_eq_of_lt h]

theorem add_toNat_sub (a x : Addr) : a + BitVec.ofNat 32 (x - a).toNat = x := by
  rw [BitVec.ofNat_toNat, BitVec.setWidth_eq, BitVec.add_comm, BitVec.sub_add_cancel]

/-- From `a` to `x`, and then on. -/
theorem add_distance (a x : Addr) (i : ℕ) :
    a + BitVec.ofNat 32 ((x - a).toNat + i) = x + BitVec.ofNat 32 i := by
  rw [BitVec.ofNat_add, ← BitVec.add_assoc, add_toNat_sub]

theorem inRange_add (hi : i < n) (hn : n ≤ 2 ^ 32) : InRange a n (a + BitVec.ofNat 32 i) := by
  rw [InRange, toNat_add_sub (by omega)]
  exact hi

/-- The distance from the next address. -/
theorem toNat_sub_succ (h : x ≠ a) : (x - a).toNat = (x - (a + 1)).toNat + 1 := by
  bv_omega

theorem toNat_sub_self (a : Addr) : (a - a).toNat = 0 := by
  bv_omega

theorem inRange_self (h : 0 < n) : InRange a n a := by
  rw [InRange, toNat_sub_self]
  exact h

/-- A range is its first address and the range after it. -/
theorem inRange_succ : InRange a (n + 1) x ↔ x = a ∨ InRange (a + 1) n x := by
  unfold InRange
  by_cases h : x = a
  · subst h
    simp
  · rw [toNat_sub_succ h]
    simp [h]

/-! ## Filling -/

/-- `rep stosb`, with the count `ecx`. -/
def repStosb (mem : Bytes) (edi : Addr) (al : Byte) : ℕ → Bytes
  | 0 => mem
  | ecx + 1 => repStosb (Function.update mem edi al) (edi + 1) al ecx

/-- `stosl`: the bytes of the register, the lowest first. -/
def stosl (mem : Bytes) (edi : Addr) (eax : BitVec 32) : Bytes :=
  Function.update (Function.update (Function.update (Function.update mem
    edi (eax.extractLsb' 0 8)) (edi + 1) (eax.extractLsb' 8 8))
    (edi + 2) (eax.extractLsb' 16 8)) (edi + 3) (eax.extractLsb' 24 8)

/-- `rep stosl`, with the count `ecx`. -/
def repStosl (mem : Bytes) (edi : Addr) (eax : BitVec 32) : ℕ → Bytes
  | 0 => mem
  | ecx + 1 => repStosl (stosl mem edi eax) (edi + 4) eax ecx

/-- **Filling** a range: these bytes, and no others. -/
theorem repStosb_apply (mem : Bytes) (edi : Addr) (al : Byte) (n : ℕ) (x : Addr) :
    repStosb mem edi al n x = if InRange edi n x then al else mem x := by
  induction n generalizing mem edi with
  | zero => rfl
  | succ n ih =>
    rw [repStosb, ih]
    by_cases hx : x = edi
    · subst hx
      simp [inRange_succ]
    · simp [inRange_succ, hx]

/-- Filling a range, and then the one behind it. -/
theorem repStosb_add (mem : Bytes) (edi : Addr) (al : Byte) (m n : ℕ) :
    repStosb (repStosb mem edi al m) (edi + BitVec.ofNat 32 m) al n =
      repStosb mem edi al (m + n) := by
  induction m generalizing mem edi with
  | zero => simp [repStosb]
  | succ m ih =>
    rw [Nat.add_right_comm, repStosb, repStosb, ← ih]
    congr 1
    bv_omega

/-- With four times the same byte in the register, a byte is stored four times for each count. -/
theorem repStosl_eq (mem : Bytes) (edi : Addr) {eax : BitVec 32}
    (h : ∀ k < 4, eax.extractLsb' (8 * k) 8 = al) (n : ℕ) :
    repStosl mem edi eax n = repStosb mem edi al (4 * n) := by
  induction n generalizing mem edi with
  | zero => rfl
  | succ n ih =>
    have h₀ : eax.extractLsb' 0 8 = al := h 0 (by omega)
    have h₁ : eax.extractLsb' 8 8 = al := h 1 (by omega)
    have h₂ : eax.extractLsb' 16 8 = al := h 2 (by omega)
    have h₃ : eax.extractLsb' 24 8 = al := h 3 (by omega)
    have hedi : edi + 4 = edi + 1 + 1 + 1 + 1 := by bv_omega
    have h2 : edi + 2 = edi + 1 + 1 := by bv_omega
    have h3 : edi + 3 = edi + 1 + 1 + 1 := by bv_omega
    rw [repStosl, ih, stosl, h₀, h₁, h₂, h₃, hedi, h2, h3]
    rfl

/-! ## Copying -/

/-- `rep movsb`, with the count `ecx`. -/
def repMovsb (mem : Bytes) (edi esi : Addr) : ℕ → Bytes
  | 0 => mem
  | ecx + 1 => repMovsb (Function.update mem edi (mem esi)) (edi + 1) (esi + 1) ecx

/-- One step further from the source, in the first `d` bytes: from the last one back to the
first. -/
theorem update_source (hj : i + 1 < 2 ^ 32) :
    Function.update mem edi (mem esi)
        (esi + 1 + BitVec.ofNat 32 (i % (edi - esi).toNat)) =
      mem (esi + BitVec.ofNat 32 ((i + 1) % (edi - esi).toNat)) := by
  generalize hd : (edi - esi).toNat = d
  have hedi : edi = esi + BitVec.ofNat 32 d := by rw [← hd, add_toNat_sub]
  have hstep (k : ℕ) : esi + 1 + BitVec.ofNat 32 k = esi + BitVec.ofNat 32 (k + 1) := by bv_omega
  have hne {k : ℕ} (hk : k < 2 ^ 32) (hkd : k ≠ d) : esi + BitVec.ofNat 32 k ≠ edi := by
    intro heq
    rw [hedi] at heq
    have := congrArg (fun y => (y - esi).toNat) heq
    simp only [toNat_add_sub hk, toNat_add_sub (show d < 2 ^ 32 by bv_omega)] at this
    exact hkd this
  rw [hstep]
  rcases Nat.eq_zero_or_pos d with rfl | hpos
  · -- the source is the destination
    rw [Nat.mod_zero, Nat.mod_zero, Function.update_of_ne (hne hj (by omega))]
  · have hlt := Nat.mod_lt i hpos
    rw [← Nat.mod_add_mod i d 1]
    by_cases hlast : i % d + 1 = d
    · rw [hlast, Nat.mod_self, ← hedi, Function.update_self, BitVec.add_zero]
    · rw [Nat.mod_eq_of_lt (show i % d + 1 < d by omega),
        Function.update_of_ne (hne (by bv_omega) hlast)]

/-- **Copying upwards**: each byte comes from the first `d` bytes of the source, where `d` is the
distance from the source to the destination. -/
theorem repMovsb_apply (mem : Bytes) (edi esi : Addr) {n : ℕ} (hn : n ≤ 2 ^ 32) (x : Addr) :
    repMovsb mem edi esi n x = if InRange edi n x then
      mem (esi + BitVec.ofNat 32 ((x - edi).toNat % (edi - esi).toNat)) else mem x := by
  induction n generalizing mem edi esi with
  | zero => rfl
  | succ n ih =>
    rw [repMovsb, ih _ _ _ (by omega)]
    rw [show edi + 1 - (esi + 1) = edi - esi by bv_omega]
    by_cases hx : x = edi
    · subst hx
      have hout : ¬InRange (x + 1) n x := by
        unfold InRange
        bv_omega
      rw [if_neg hout, if_pos (inRange_succ.mpr (.inl rfl)), Function.update_self, toNat_sub_self,
        Nat.zero_mod, BitVec.add_zero]
    · rw [Function.update_of_ne hx]
      by_cases hin : InRange (edi + 1) n x
      · rw [if_pos hin, if_pos (inRange_succ.mpr (.inr hin)), toNat_sub_succ hx]
        exact update_source (by unfold InRange at hin; omega)
      · rw [if_neg hin, if_neg fun h => (inRange_succ.mp h).elim hx hin]

end SchemeOs
