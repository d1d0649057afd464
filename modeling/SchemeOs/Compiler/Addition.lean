import Mathlib.Algebra.BigOperators.Ring.Finset
import Mathlib.Data.Int.Notation

/-!
# Compiler/Addition — tagged integers and `builtin_add`

The words of the compiled code: an integer is shifted by one bit and its tag bit set.  `builtin_add`
adds the words of its operands, tags and all, from the far end of the stack towards the top, takes
the number of the tags off the sum and sets the tag again.
-/

namespace SchemeOs.Compiler

open Finset

/-- A word of the compiled code. -/
abbrev ObjWord := BitVec 32

/-! ## Tags

An integer is shifted by one bit and tagged in the lowest, in words of 32 bits. -/

/-- `SCHEME_INTP`. -/
def schemeIntp (obj : ObjWord) : Bool := obj &&& 1 ≠ 0

/-- `SCHEME_INT_ZERO`. -/
def schemeIntZero : ObjWord := 1

/-- `SCHEME_OBJ_TO_INT`. -/
def schemeObjToInt (obj : ObjWord) : ℤ := (obj.sshiftRight 1).toInt

/-- `SCHEME_INT_TO_OBJ`. -/
def schemeIntToObj (v : ℤ) : ObjWord := (BitVec.ofInt 32 v <<< 1) ||| 1

variable {v : ℤ} {obj : ObjWord}

/-- The tag is added to twice the value. -/
theorem shiftLeft_or_one (x : ObjWord) : x <<< 1 ||| 1 = 2 * x + 1 := by
  have hand : x <<< 1 &&& 1 = 0#32 := by
    apply BitVec.eq_of_getLsbD_eq
    intro i hi
    simp
    omega
  rw [← BitVec.add_eq_or_of_and_eq_zero _ _ hand, BitVec.shiftLeft_eq_mul_twoPow, BitVec.mul_comm]
  rfl

theorem schemeIntToObj_eq (v : ℤ) : schemeIntToObj v = BitVec.ofInt 32 (2 * v + 1) := by
  rw [schemeIntToObj, shiftLeft_or_one, BitVec.ofInt_add, BitVec.ofInt_mul]
  rfl

/-- **A tag takes a bit** off the value. -/
theorem schemeObjToInt_intToObj (v : ℤ) : schemeObjToInt (schemeIntToObj v) = v.bmod (2 ^ 31) := by
  rw [schemeIntToObj_eq, schemeObjToInt, BitVec.toInt_sshiftRight, BitVec.toInt_ofInt,
    Int.shiftRight_eq_div_pow, Int.bmod_def, Int.bmod_def]
  split <;> split <;> omega

/-- The tag is the lowest bit. -/
theorem schemeIntp_iff : schemeIntp obj ↔ obj.toInt % 2 = 1 := by
  have hbit : obj &&& 1 = 0 ↔ obj.toNat % 2 = 0 := by
    rw [← BitVec.toNat_inj, BitVec.toNat_and]
    exact Nat.and_one_is_mod _ ▸ Iff.rfl
  rw [schemeIntp, decide_eq_true_eq, ne_eq, hbit, BitVec.toInt_eq_toNat_cond]
  split <;> omega

theorem schemeIntp_intToObj (v : ℤ) : schemeIntp (schemeIntToObj v) := by
  rw [schemeIntp_iff, schemeIntToObj_eq, BitVec.toInt_ofInt, Int.bmod_def]
  split <;> omega

/-- A word with a tag is that of its value. -/
theorem eq_intToObj_of_intp (h : schemeIntp obj) : obj = schemeIntToObj (schemeObjToInt obj) := by
  have hodd := schemeIntp_iff.mp h
  have hvalue : 2 * schemeObjToInt obj + 1 = obj.toInt := by
    rw [schemeObjToInt, BitVec.toInt_sshiftRight, Int.shiftRight_eq_div_pow]
    omega
  rw [schemeIntToObj_eq, hvalue, BitVec.ofInt_toInt]

/-! ## `builtin_add` -/

/-- The registers of `g_svm` that `builtin_add` reads and writes, and the cells of the stack. -/
structure AddState where
  value : ObjWord
  argc : ℕ
  stackTop : ℕ
  cells : ℕ → ObjWord

/-- The loop: with `argc` operands left, the last one is added to the one before it. -/
def addLoop (top : ℕ) : ℕ → (ℕ → ObjWord) → ℕ → ObjWord
  | argc + 2, cells =>
    addLoop top (argc + 1)
      (Function.update cells (top + argc) (cells (top + argc) + cells (top + (argc + 1))))
  | _, cells => cells

/-- `builtin_add`. -/
def builtinAdd (s : AddState) : AddState :=
  if s.argc = 0 then { s with value := schemeIntZero }
  else
    let cells := addLoop s.stackTop s.argc s.cells
    let sum := (cells s.stackTop - BitVec.ofNat 32 s.argc) ||| 1
    { s with
      value := sum
      stackTop := s.stackTop + s.argc
      cells := Function.update cells s.stackTop sum }

variable {top n j : ℕ} {cells : ℕ → ObjWord}

/-- Only the operands' cells are written. -/
theorem addLoop_outside (h : j < top ∨ top + n ≤ j) : addLoop top n cells j = cells j := by
  induction n generalizing cells with
  | zero => rfl
  | succ n ih =>
    cases n with
    | zero => rfl
    | succ n =>
      rw [addLoop, ih (by omega), Function.update_of_ne (by omega)]

/-- **The sum of the words** is what the loop leaves on top. -/
theorem addLoop_top (x : ℕ → ℤ) (h : ∀ i ≤ n, cells (top + i) = BitVec.ofInt 32 (x i)) :
    addLoop top (n + 1) cells top = BitVec.ofInt 32 (∑ i ∈ range (n + 1), x i) := by
  induction n generalizing cells x with
  | zero =>
    rw [sum_range_one]
    exact h 0 (Nat.le_refl 0)
  | succ n ih =>
    -- the last two operands have become one
    rw [addLoop, ih (Function.update x n (x n + x (n + 1))), sum_range_succ,
      sum_range_succ _ (n + 1), sum_range_succ _ n, Function.update_self, add_assoc]
    · congr 2
      refine sum_congr rfl fun i hi => ?_
      rw [Function.update_of_ne (mem_range.mp hi).ne]
    · intro i hi
      rcases Nat.lt_or_eq_of_le hi with hlt | rfl
      · rw [Function.update_of_ne (by omega), Function.update_of_ne hlt.ne, h i (by omega)]
      · rw [Function.update_self, Function.update_self, h i (by omega), h (i + 1) (Nat.le_refl _),
          BitVec.ofInt_add]

/-- The value of the `i`-th operand. -/
def AddState.operand (s : AddState) (i : ℕ) : ℤ := schemeObjToInt (s.cells (s.stackTop + i))

theorem builtinAdd_of_pos {s : AddState} (h : s.argc ≠ 0) : builtinAdd s =
    { s with
      value := (addLoop s.stackTop s.argc s.cells s.stackTop - BitVec.ofNat 32 s.argc) ||| 1
      stackTop := s.stackTop + s.argc
      cells := Function.update (addLoop s.stackTop s.argc s.cells) s.stackTop
        ((addLoop s.stackTop s.argc s.cells s.stackTop - BitVec.ofNat 32 s.argc) ||| 1) } := by
  rw [builtinAdd, if_neg h]

/-- The tags come off the sum of the words. -/
theorem addLoop_untagged (x : ℕ → ℤ) (h : ∀ i ≤ n, cells (top + i) = schemeIntToObj (x i)) :
    addLoop top (n + 1) cells top - BitVec.ofNat 32 (n + 1) =
      BitVec.ofInt 32 (∑ i ∈ range (n + 1), x i) <<< 1 := by
  have hwords : ∀ i ≤ n, cells (top + i) = BitVec.ofInt 32 (2 * x i + 1) :=
    fun i hi => (h i hi).trans (schemeIntToObj_eq (x i))
  have hsum : ∑ i ∈ range (n + 1), (2 * x i + 1) =
      2 * ∑ i ∈ range (n + 1), x i + ((n + 1 : ℕ) : ℤ) := by
    rw [sum_add_distrib, ← mul_sum, sum_const, card_range, nsmul_one]
  rw [addLoop_top _ hwords, hsum, BitVec.ofInt_add, BitVec.ofInt_natCast, BitVec.add_sub_cancel,
    BitVec.ofInt_mul, BitVec.shiftLeft_eq_mul_twoPow, BitVec.mul_comm]
  rfl

/-- **Addition**: the sum of the operands, reduced to the range of a tagged integer, is left in the
value register with its tag, and no cell other than those of the operands changes. -/
theorem builtinAdd_correct (s : AddState)
    (h : ∀ i < s.argc, schemeIntp (s.cells (s.stackTop + i))) :
    (builtinAdd s).value = schemeIntToObj (∑ i ∈ range s.argc, s.operand i) ∧
      schemeIntp (builtinAdd s).value ∧
      schemeObjToInt (builtinAdd s).value = (∑ i ∈ range s.argc, s.operand i).bmod (2 ^ 31) ∧
      ∀ j, j < s.stackTop ∨ s.stackTop + s.argc ≤ j → (builtinAdd s).cells j = s.cells j := by
  have hvalue : (builtinAdd s).value = schemeIntToObj (∑ i ∈ range s.argc, s.operand i) := by
    cases hn : s.argc with
    | zero =>
      rw [builtinAdd, if_pos hn, range_zero, sum_empty]
      rfl
    | succ n =>
      rw [builtinAdd_of_pos (by omega), hn, addLoop_untagged s.operand]
      · rfl
      · exact fun i hi => eq_intToObj_of_intp (h i (by omega))
  refine ⟨hvalue, hvalue ▸ schemeIntp_intToObj _, hvalue ▸ schemeObjToInt_intToObj _, ?_⟩
  intro j hj
  by_cases hn : s.argc = 0
  · rw [builtinAdd, if_pos hn]
  · rw [builtinAdd_of_pos hn]
    change Function.update _ _ _ j = _
    rw [Function.update_of_ne (by omega), addLoop_outside hj]

theorem builtinAdd_correct_three :
    schemeIntp (builtinAdd ⟨0, 3, 5, fun _ => schemeIntToObj (2 ^ 29)⟩).value :=
  (builtinAdd_correct ⟨0, 3, 5, fun _ => schemeIntToObj (2 ^ 29)⟩
    fun _ _ => schemeIntp_intToObj _).2.1

end SchemeOs.Compiler
