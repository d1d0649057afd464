import Mathlib.Tactic.SplitIfs
import SchemeOs.Machinery.StringInstructions

/-!
# Strings/Moves — the copies of `include/string.h`

`memcpy` copies upwards.  `memmove` first saves the end of the destination, by a copy that starts
the distance of the two ranges further up, and then copies the beginning.  The first of these copies
can overlap with itself: then it repeats the first bytes that it copies.
-/

namespace SchemeOs.Strings

variable {mem : Bytes} {dest src x : Addr} {n : BitVec 32} {i : ℕ}

/-- `memcpy` -/
def memcpy (mem : Bytes) (dest src : Addr) (n : BitVec 32) : Bytes := repMovsb mem dest src n.toNat

/-- `memmove` -/
def memmove (mem : Bytes) (dest src : Addr) (n : BitVec 32) : Bytes :=
  if dest > src ∧ dest - src < n then
    let mem := memcpy mem (dest + (dest - src)) dest (n - (dest - src))
    memcpy mem dest src (dest - src)
  else
    memcpy mem dest src n

/-- The bytes at `dest` are those that were at `src`, and all others are as they were. -/
def Moves (mem : Bytes) (dest src : Addr) (n : BitVec 32) : Prop :=
  ∀ x, memmove mem dest src n x = if InRange dest n.toNat x then mem (src + (x - dest)) else mem x

/-! ## Where the bytes come from

Each byte of the destination has an origin, which may lie in bytes that were moved before. -/

/-- The place in the source of what comes to the `i`-th place of the destination. -/
def origin (dest src : Addr) (n : BitVec 32) (i : ℕ) : ℕ :=
  if dest > src ∧ dest - src < n ∧ (dest - src).toNat ≤ i then
    (dest - src).toNat + i % (dest - src).toNat
  else
    i

theorem memcpy_apply (mem : Bytes) (dest src : Addr) (n : BitVec 32) (x : Addr) :
    memcpy mem dest src n x = if InRange dest n.toNat x then
      mem (src + BitVec.ofNat 32 ((x - dest).toNat % (dest - src).toNat)) else mem x :=
  repMovsb_apply mem dest src (by omega) x

/-- A copy that does not run into its own source. -/
theorem memcpy_apart (h : n ≤ dest - src ∨ dest = src) :
    memcpy mem dest src n x =
      if InRange dest n.toNat x then mem (src + (x - dest)) else mem x := by
  rw [memcpy_apply]
  split_ifs with hx
  · have hmod : (x - dest).toNat % (dest - src).toNat = (x - dest).toNat := by
      rcases h with h | rfl
      · exact Nat.mod_eq_of_lt (Nat.lt_of_lt_of_le hx h)
      · rw [toNat_sub_self, Nat.mod_zero]
    rw [hmod, BitVec.ofNat_toNat, BitVec.setWidth_eq]
  · rfl

/-- The two copies of overlapping ranges.  The beginning of the source is still there for the second
one, and the first one leaves the end of the destination. -/
theorem memmove_overlap (hdest : dest.toNat + n.toNat ≤ 2 ^ 32) (h : dest > src)
    (hn : dest - src < n) : memmove mem dest src n x =
      if InRange dest n.toNat x then
        mem (src + BitVec.ofNat 32 (origin dest src n (x - dest).toNat))
      else mem x := by
  rw [memmove, if_pos ⟨h, hn⟩]
  have hback : dest + (dest - src) - dest = dest - src := by bv_omega
  rw [memcpy_apart (.inl (BitVec.le_refl _)), memcpy_apply, memcpy_apply, hback]
  by_cases hx : InRange dest (dest - src).toNat x
  · have hout : ¬InRange (dest + (dest - src)) (n - (dest - src)).toNat (src + (x - dest)) := by
      unfold InRange at hx ⊢
      bv_omega
    have horigin : origin dest src n (x - dest).toNat = (x - dest).toNat :=
      if_neg fun ho => absurd ho.2.2 (Nat.not_le.mpr hx)
    have hin : InRange dest n.toNat x := Nat.lt_trans hx hn
    rw [if_pos hx, if_neg hout, if_pos hin, horigin, BitVec.ofNat_toNat,
      BitVec.setWidth_eq]
  · have hiff : InRange (dest + (dest - src)) (n - (dest - src)).toNat x ↔
        InRange dest n.toNat x := by
      unfold InRange at hx ⊢
      bv_omega
    have hle : (dest - src).toNat ≤ (x - dest).toNat := Nat.not_lt.mp hx
    have horigin : origin dest src n (x - dest).toNat =
        (dest - src).toNat + (x - dest).toNat % (dest - src).toNat := if_pos ⟨h, hn, hle⟩
    have hsub : (x - (dest + (dest - src))).toNat = (x - dest).toNat - (dest - src).toNat := by
      bv_omega
    rw [if_neg hx, horigin, hsub, ← Nat.mod_eq_sub_mod hle, add_distance]
    simp only [hiff]

/-- **What `memmove` leaves**, for any two ranges. -/
theorem memmove_apply (mem : Bytes) (hdest : dest.toNat + n.toNat ≤ 2 ^ 32)
    (hsrc : src.toNat + n.toNat ≤ 2 ^ 32) (x : Addr) : memmove mem dest src n x =
      if InRange dest n.toNat x then
        mem (src + BitVec.ofNat 32 (origin dest src n (x - dest).toNat))
      else mem x := by
  by_cases h : dest > src ∧ dest - src < n
  · exact memmove_overlap hdest h.1 h.2
  · have hapart : n ≤ dest - src ∨ dest = src := by
      by_cases heq : dest = src
      · exact .inr heq
      · exact .inl (by bv_omega)
    have horigin : origin dest src n (x - dest).toNat = (x - dest).toNat :=
      if_neg fun ho => h ⟨ho.1, ho.2.1⟩
    rw [memmove, if_neg h, memcpy_apart hapart, horigin, BitVec.ofNat_toNat, BitVec.setWidth_eq]

/-! ## Which bytes are moved -/

/-- From the distance `d` of the ranges on, the bytes of the source repeat. -/
def Repeats (mem : Bytes) (dest src : Addr) (n : BitVec 32) : Prop :=
  ∀ i, 2 * (dest - src).toNat ≤ i → i < n.toNat →
    mem (src + BitVec.ofNat 32 i) = mem (src + BitVec.ofNat 32 (i - (dest - src).toNat))

/-- Bytes that repeat are the same at all distances that are multiples of `d`. -/
theorem Repeats.eq (h : Repeats mem dest src n) (hlt : src < dest) (hd : (dest - src).toNat ≤ i)
    (hi : i < n.toNat) : mem (src + BitVec.ofNat 32 i) =
      mem (src + BitVec.ofNat 32 ((dest - src).toNat + i % (dest - src).toNat)) := by
  induction i using Nat.strongRecOn with
  | ind i ih =>
    have hpos : 0 < (dest - src).toNat := by bv_omega
    by_cases hlow : i < 2 * (dest - src).toNat
    · rw [Nat.mod_eq_sub_mod hd, Nat.mod_eq_of_lt (by omega), Nat.add_sub_cancel' hd]
    · rw [h i (Nat.not_lt.mp hlow) hi, ih _ (by omega) (by omega) (by omega),
        Nat.mod_eq_sub_mod hd]

/-- **`memmove` moves the bytes** when the destination does not start inside the source, or not in
its first half, or when the bytes there repeat. -/
theorem moves_iff (mem : Bytes) (hdest : dest.toNat + n.toNat ≤ 2 ^ 32)
    (hsrc : src.toNat + n.toNat ≤ 2 ^ 32) :
    Moves mem dest src n ↔ (src < dest → Repeats mem dest src n) := by
  constructor
  · intro h hlt i hlow hi
    have hbyte {j : ℕ} (hj : j < n.toNat) : mem (src + BitVec.ofNat 32 (origin dest src n j)) =
        mem (src + BitVec.ofNat 32 j) := by
      have heq := (memmove_apply mem hdest hsrc (dest + BitVec.ofNat 32 j)).symm.trans
        (h (dest + BitVec.ofNat 32 j))
      rw [if_pos (inRange_add hj (by omega)), if_pos (inRange_add hj (by omega)),
        toNat_add_sub (by omega)] at heq
      rw [heq]
      congr 1
      bv_omega
    have horigin {j : ℕ} (hj : (dest - src).toNat ≤ j) (hjn : j < n.toNat) :
        origin dest src n j = (dest - src).toNat + j % (dest - src).toNat :=
      if_pos ⟨hlt, by bv_omega, hj⟩
    rw [← hbyte hi, ← hbyte (show i - (dest - src).toNat < n.toNat by omega),
      horigin (by omega) hi, horigin (by omega) (by omega), Nat.mod_eq_sub_mod (by omega)]
  · intro h x
    rw [memmove_apply mem hdest hsrc]
    split_ifs with hx
    · have hback : src + (x - dest) = src + BitVec.ofNat 32 (x - dest).toNat := by
        rw [BitVec.ofNat_toNat, BitVec.setWidth_eq]
      rw [hback, origin]
      split_ifs with ho
      · exact ((h ho.1).eq ho.1 ho.2.2 hx).symm
      · rfl
    · rfl

/-- A memory in which each byte is the lowest byte of its address. -/
def counting : Bytes := fun a => a.setWidth 8

/-- Two bytes moved by one place. -/
theorem moves_iff_two : (5 : Addr).toNat + (2 : BitVec 32).toNat ≤ 2 ^ 32 ∧
    (4 : Addr).toNat + (2 : BitVec 32).toNat ≤ 2 ^ 32 ∧
      (Moves counting 5 4 2 ↔ ((4 : Addr) < 5 → Repeats counting 5 4 2)) :=
  ⟨by decide, by decide, moves_iff counting (by decide) (by decide)⟩

/-- Three bytes moved by one place: the third one is lost. -/
theorem not_moves : ¬∀ (mem : Bytes) (dest src : Addr) (n : BitVec 32),
    dest.toNat + n.toNat ≤ 2 ^ 32 → src.toNat + n.toNat ≤ 2 ^ 32 → Moves mem dest src n := by
  intro h
  have hbyte := h counting 5 4 3 (by decide) (by decide) 7
  revert hbyte
  decide

end SchemeOs.Strings
