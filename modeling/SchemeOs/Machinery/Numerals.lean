import Mathlib.Algebra.Order.Ring.Nat
import Mathlib.Data.Nat.Notation

/-!
# Machinery/Numerals — digits in a base

`digitsOf b k n` are the last `k` digits of `n` in the base `b`, the first of them first.  A
converter takes them off from either side; the numeral of `n` has as many as are needed.  A numeral
behind a mark that is no digit can be told from what stands before the mark.
-/

namespace SchemeOs

variable {b k n : ℕ}

/-- The last `k` digits of `n`. -/
def digitsOf (b : ℕ) : ℕ → ℕ → List ℕ
  | 0, _ => []
  | k + 1, n => digitsOf b k (n / b) ++ [n % b]

/-- **The first digit** comes off. -/
theorem digitsOf_succ (b k n : ℕ) :
    digitsOf b (k + 1) n = n / b ^ k % b :: digitsOf b k n := by
  induction k generalizing n with
  | zero => rw [digitsOf, digitsOf, digitsOf, pow_zero, Nat.div_one, List.nil_append]
  | succ k ih =>
    rw [digitsOf, ih (n / b), digitsOf, Nat.div_div_eq_div_mul, ← pow_succ', List.cons_append]

/-- Digits further to the front do not matter. -/
theorem digitsOf_mod (b k n : ℕ) : digitsOf b k (n % b ^ k) = digitsOf b k n := by
  induction k generalizing n with
  | zero => rfl
  | succ k ih =>
    rw [digitsOf, digitsOf, pow_succ', Nat.mod_mul_right_div_self, ih, Nat.mod_mul_right_mod]

/-- **The numeral** of a number with exactly `k + 1` digits. -/
theorem toDigits_eq (hb : 1 < b) (hle : k = 0 ∨ b ^ k ≤ n) (hlt : n < b ^ (k + 1)) :
    Nat.toDigits b n = (digitsOf b (k + 1) n).map Nat.digitChar := by
  induction k generalizing n with
  | zero =>
    rw [zero_add, pow_one] at hlt
    rw [Nat.toDigits_of_lt_base hlt, digitsOf, digitsOf, Nat.mod_eq_of_lt hlt]
    rfl
  | succ k ih =>
    have hpow : b ^ k * b ≤ n := by
      rw [← pow_succ]
      exact hle.resolve_left (Nat.succ_ne_zero k)
    have hbn : b ≤ n := (Nat.le_mul_of_pos_left b (Nat.pow_pos (by omega))).trans hpow
    have hdiv : b ^ k ≤ n / b := (Nat.le_div_iff_mul_le (by omega)).mpr hpow
    have hdivlt : n / b < b ^ (k + 1) := Nat.div_lt_of_lt_mul (by rw [← pow_succ']; exact hlt)
    change _ = (digitsOf b (k + 1) (n / b) ++ [n % b]).map Nat.digitChar
    rw [Nat.toDigits_of_base_le hb hbn, ih (Or.inr hdiv) hdivlt, List.map_append,
      List.map_singleton]

/-! ## Numbered names -/

/-- The name `u` with a number behind it. -/
def numbered (u : List Char) (n : ℕ) : List Char := u ++ '_' :: Nat.toDigits 10 n

theorem toDigits_injective {m : ℕ} (h : Nat.toDigits 10 n = Nat.toDigits 10 m) : n = m := by
  have hread := congrArg (fun ds => Nat.ofDigitChars 10 ds 0) h
  simpa only [Nat.ofDigitChars_toDigits (show 1 < 10 by omega) (show 10 ≤ 10 by omega)] using hread

/-- **A numbered name** tells its name and its number. -/
theorem numbered_injective {u v : List Char} {m : ℕ} (h : numbered u n = numbered v m) :
    u = v ∧ n = m := by
  have hcut : ∀ (u : List Char) (n : ℕ),
      (numbered u n).reverse.takeWhile (· ≠ '_') = (Nat.toDigits 10 n).reverse := by
    intro u n
    rw [numbered, List.reverse_append, List.reverse_cons, List.append_assoc,
      List.takeWhile_append_of_pos]
    · simp
    · intro c hc
      rw [decide_eq_true_eq]
      rintro rfl
      exact Nat.underscore_not_in_toDigits (List.mem_reverse.mp hc)
  have hdigits : Nat.toDigits 10 n = Nat.toDigits 10 m := by
    rw [← List.reverse_inj, ← hcut u n, h, hcut v m]
  have hn := toDigits_injective hdigits
  subst hn
  exact ⟨List.append_cancel_right h, rfl⟩

end SchemeOs
