import Mathlib.Tactic.IntervalCases
import SchemeOs.Machinery.StringInstructions

/-!
# Machinery/Fields — words in a memory of bytes

A word lies in two or four bytes, the lowest one first.
-/

namespace SchemeOs

variable {mem mem' : Bytes} {a b x : Addr} {k m n : ℕ}

/-! ## Ranges -/

/-- A range inside another one. -/
theorem InRange.inside (h : InRange (a + BitVec.ofNat 32 k) m x) (hk : k + m ≤ n)
    (hn : n ≤ 2 ^ 32) : InRange a n x := by
  unfold InRange at h ⊢
  bv_omega

theorem InRange.mono (h : InRange a m x) (hn : m ≤ n) : InRange a n x := Nat.lt_of_lt_of_le h hn

/-- Two ranges without a common address. -/
def RangesApart (a : Addr) (m : ℕ) (b : Addr) (n : ℕ) : Prop := ∀ x, InRange a m x → ¬InRange b n x

/-- Two memories are the same in a range. -/
def SameIn (a : Addr) (n : ℕ) (mem mem' : Bytes) : Prop := ∀ x, InRange a n x → mem' x = mem x

/-- A range below another one. -/
theorem rangesApart_of_le (h : a.toNat + m ≤ b.toNat) (hb : b.toNat + n ≤ 2 ^ 32) :
    RangesApart a m b n := by
  intro x ha hb
  unfold InRange at ha hb
  bv_omega

theorem RangesApart.symm (h : RangesApart a m b n) : RangesApart b n a m := fun x hb ha => h x ha hb

theorem SameIn.trans {mem'' : Bytes} (h : SameIn a n mem mem') (h' : SameIn a n mem' mem'') :
    SameIn a n mem mem'' := fun x hx => (h' x hx).trans (h x hx)

/-- A byte written elsewhere. -/
theorem sameIn_update (h : ¬InRange a n x) (c : Byte) :
    SameIn a n mem (Function.update mem x c) := by
  rintro y hy
  have hne : y ≠ x := by
    rintro rfl
    exact h hy
  exact Function.update_of_ne hne c mem

/-! ## Words

Words in memory, least significant byte first. -/

def load16 (mem : Bytes) (a : Addr) : BitVec 16 := mem (a + 1) ++ mem a

def load32 (mem : Bytes) (a : Addr) : BitVec 32 :=
  mem (a + 3) ++ mem (a + 2) ++ mem (a + 1) ++ mem a

def store16 (mem : Bytes) (a : Addr) (w : BitVec 16) : Bytes :=
  Function.update (Function.update mem a (w.extractLsb' 0 8)) (a + 1) (w.extractLsb' 8 8)

def store32 (mem : Bytes) (a : Addr) (w : BitVec 32) : Bytes := stosl mem a w

theorem inRange_two : InRange a 2 x ↔ x = a ∨ x = a + 1 := by
  unfold InRange
  bv_omega

theorem inRange_four : InRange a 4 x ↔ x = a ∨ x = a + 1 ∨ x = a + 2 ∨ x = a + 3 := by
  unfold InRange
  bv_omega

/-- A word depends on its own bytes. -/
theorem load16_congr (h : SameIn a 2 mem mem') : load16 mem' a = load16 mem a := by
  rw [load16, load16, h a (inRange_two.mpr (.inl rfl)), h (a + 1) (inRange_two.mpr (.inr rfl))]

theorem load32_congr (h : SameIn a 4 mem mem') : load32 mem' a = load32 mem a := by
  unfold load32
  rw [h a (inRange_four.mpr (by simp)), h (a + 1) (inRange_four.mpr (by simp)),
    h (a + 2) (inRange_four.mpr (by simp)), h (a + 3) (inRange_four.mpr (by simp))]

/-- A store changes its own bytes only. -/
theorem store16_of_not (h : ¬InRange a 2 x) (w : BitVec 16) : store16 mem a w x = mem x := by
  rw [inRange_two, not_or] at h
  rw [store16, Function.update_of_ne h.2, Function.update_of_ne h.1]

theorem store32_of_not (h : ¬InRange a 4 x) (w : BitVec 32) : store32 mem a w x = mem x := by
  simp only [inRange_four, not_or] at h
  rw [store32, stosl, Function.update_of_ne h.2.2.2, Function.update_of_ne h.2.2.1,
    Function.update_of_ne h.2.1, Function.update_of_ne h.1]

/-- **A word that was stored** is loaded. -/
theorem load16_store16 (mem : Bytes) (a : Addr) (w : BitVec 16) :
    load16 (store16 mem a w) a = w := by
  have h : a ≠ a + 1 := by bv_omega
  rw [load16, store16, Function.update_self, Function.update_of_ne h, Function.update_self]
  refine BitVec.eq_of_getLsbD_eq fun i hi => ?_
  interval_cases i <;> simp only [BitVec.getLsbD_append, BitVec.getLsbD_extractLsb'] <;> rfl

theorem load32_store32 (mem : Bytes) (a : Addr) (w : BitVec 32) :
    load32 (store32 mem a w) a = w := by
  have h01 : a ≠ a + 1 := by bv_omega
  have h02 : a ≠ a + 2 := by bv_omega
  have h03 : a ≠ a + 3 := by bv_omega
  have h12 : a + 1 ≠ a + 2 := by bv_omega
  have h13 : a + 1 ≠ a + 3 := by bv_omega
  have h23 : a + 2 ≠ a + 3 := by bv_omega
  unfold load32 store32 stosl
  rw [Function.update_self, Function.update_of_ne h23, Function.update_self,
    Function.update_of_ne h13, Function.update_of_ne h12, Function.update_self,
    Function.update_of_ne h03, Function.update_of_ne h02, Function.update_of_ne h01,
    Function.update_self]
  refine BitVec.eq_of_getLsbD_eq fun i hi => ?_
  interval_cases i <;> simp only [BitVec.getLsbD_append, BitVec.getLsbD_extractLsb'] <;> rfl

end SchemeOs
