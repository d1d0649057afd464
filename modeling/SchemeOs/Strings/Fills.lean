import Mathlib.Tactic.IntervalCases
import SchemeOs.Machinery.StringInstructions

/-!
# Strings/Fills — `memset` of `lib/string.c`

The fill is a `rep stosl` and, for the bytes that are left, a `rep stosb`.  The count of the first
one is the number of bytes rounded down to a multiple of four, where it should be a fourth of that.
-/

namespace SchemeOs.Strings

variable {mem : Bytes} {s x : Addr} {c n : BitVec 32} {k : ℕ}

/-- The lowest byte of an `int`, four times. -/
def replicate (c : BitVec 32) : BitVec 32 :=
  let c := c &&& 0xff
  let c := c ||| (c <<< 8)
  c ||| (c <<< 16)

/-- `memset`: the registers are `edi`, `eax`, `ecx` and `edx`. -/
def memset (mem : Bytes) (s : Addr) (c n : BitVec 32) : Bytes :=
  let eax := replicate c
  let ecx := n &&& ~~~3#32
  let edx := n &&& 3
  repStosb (repStosl mem s eax ecx.toNat) (s + 4 * ecx) (eax.extractLsb' 0 8) edx.toNat

/-- The `n` bytes at `s` are the lowest byte of `c`, and all others are as they were. -/
def Fills (mem : Bytes) (s : Addr) (c n : BitVec 32) : Prop :=
  ∀ x, memset mem s c n x = if InRange s n.toNat x then c.setWidth 8 else mem x

/-! ## The registers -/

theorem extractLsb'_replicate (c : BitVec 32) (hk : k < 4) :
    (replicate c).extractLsb' (8 * k) 8 = c.setWidth 8 := by
  refine BitVec.eq_of_getLsbD_eq fun i hi => ?_
  simp only [replicate]
  interval_cases k <;> interval_cases i <;> simp

theorem toNat_and_not_three (n : BitVec 32) : (n &&& ~~~3#32).toNat = 4 * (n.toNat / 4) := by
  have h : n &&& ~~~3#32 = (n >>> 2) <<< 2 := by
    refine BitVec.eq_of_getLsbD_eq fun i hi => ?_
    interval_cases i <;> simp
  rw [h, BitVec.toNat_shiftLeft, BitVec.toNat_ushiftRight, Nat.shiftLeft_eq,
    Nat.shiftRight_eq_div_pow]
  omega

theorem toNat_and_three (n : BitVec 32) : (n &&& 3).toNat = n.toNat % 4 := by
  rw [BitVec.toNat_and]
  exact Nat.and_two_pow_sub_one_eq_mod n.toNat 2

/-! ## What is written

Four words for each four bytes that are asked for, and then the bytes that are left. -/

/-- The number of bytes that `memset` writes. -/
def written (n : BitVec 32) : ℕ := 16 * (n.toNat / 4) + n.toNat % 4

theorem memset_eq (mem : Bytes) (s : Addr) (c n : BitVec 32) :
    memset mem s c n = repStosb mem s (c.setWidth 8) (written n) := by
  have hal : (replicate c).extractLsb' (8 * 0) 8 = c.setWidth 8 :=
    extractLsb'_replicate c (by decide)
  have hedi : s + 4 * (n &&& ~~~3#32) = s + BitVec.ofNat 32 (4 * (4 * (n.toNat / 4))) := by
    rw [← toNat_and_not_three, BitVec.ofNat_mul, BitVec.ofNat_toNat, BitVec.setWidth_eq]
    rfl
  unfold memset
  dsimp only
  rw [repStosl_eq mem s fun k hk => extractLsb'_replicate c hk,
    show (replicate c).extractLsb' 0 8 = _ from hal, hedi, toNat_and_not_three,
    toNat_and_three, repStosb_add, written]
  congr 1
  omega

/-- **`memset` fills the range** and nothing else when what it writes behind the range was there
before. -/
theorem fills_iff (mem : Bytes) (s : Addr) (c n : BitVec 32) :
    Fills mem s c n ↔ ∀ x, n.toNat ≤ (x - s).toNat → (x - s).toNat < written n →
      mem x = c.setWidth 8 := by
  have hle : n.toNat ≤ written n := by
    unfold written
    omega
  unfold Fills
  rw [memset_eq]
  refine forall_congr' fun x => ?_
  rw [repStosb_apply]
  by_cases hn : InRange s n.toNat x
  · have hw : InRange s (written n) x := Nat.lt_of_lt_of_le hn hle
    rw [if_pos hn, if_pos hw]
    exact iff_of_true rfl fun hge => absurd hn (Nat.not_lt.mpr hge)
  · rw [if_neg hn]
    split_ifs with hw
    · exact ⟨fun heq _ _ => heq.symm, fun h => (h (Nat.not_lt.mp hn) hw).symm⟩
    · exact iff_of_true rfl fun _ hlt => absurd hlt hw

/-- It fills the range in every memory when there are less than four bytes. -/
theorem fills_all_iff (s : Addr) (c n : BitVec 32) : (∀ mem, Fills mem s c n) ↔ n.toNat < 4 := by
  constructor
  · intro h
    by_contra hn
    have hlt : n.toNat < written n := by
      unfold written
      omega
    -- a memory without that byte, with one more written than asked for
    have hbyte := (fills_iff (fun _ => ~~~c.setWidth 8) s c n).mp (h _) (s + n)
      (by bv_omega) (by bv_omega)
    exact absurd hbyte (by simp)
  · intro hn mem
    refine (fills_iff mem s c n).mpr fun x hge hlt => ?_
    unfold written at hlt
    omega

/-- Four bytes: sixteen are written. -/
theorem not_fills : ¬∀ (mem : Bytes) (s : Addr) (c n : BitVec 32), Fills mem s c n := by
  intro h
  have hbyte := h (fun _ => 0) 8 97 4 12
  revert hbyte
  decide

end SchemeOs.Strings
