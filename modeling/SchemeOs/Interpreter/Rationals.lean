import Mathlib.Data.Int.GCD
import SchemeOs.Interpreter.Division

/-!
# Interpreter/Rationals — rational numbers in lowest terms

`_gcd` subtracts the smaller of two numbers from the larger one until nothing is left.  That comes
to an end for positive numbers: from 0 nothing is subtracted, and a negative number makes the other
one larger until it overflows.
-/

namespace SchemeOs

variable {a b d n : ℤ} {fuel : ℕ} {stale : SchemeType}

namespace Rationals

/-- An object, with the member `int_pair` of its union. -/
structure IntPair where
  type : SchemeType
  v1 : ℤ
  v2 : ℤ
  deriving DecidableEq, Repr

/-- The loop of `_gcd`.  A difference that is no `int` is undefined. -/
def gcd : ℕ → ℤ → ℤ → Option ℤ
  | 0, _, _ => none
  | fuel + 1, a, b =>
    let (a, b) := if a > b then (b, a) else (a, b)
    if IsInt (b - a) then
      let b := b - a
      if b ≠ 0 then gcd fuel a b else some a
    else
      none

/-- `scheme_make_rational`.  The type of the new object is not set: it is `stale`, what was there
before. -/
def schemeMakeRational (stale : SchemeType) (fuel : ℕ) (numerator denominator : ℤ) :
    Option IntPair := do
  let k ← gcd fuel numerator denominator
  return ⟨stale, ← div? numerator k, ← div? denominator k⟩

/-- The object is a rational number, namely the quotient of `n` and `d` in lowest terms. -/
structure Reduced (n d : ℤ) (rat : IntPair) : Prop where
  type : rat.type = .rational
  eq : rat.v1 * d = n * rat.v2
  pos : 1 ≤ rat.v2
  coprime : Int.gcd rat.v1 rat.v2 = 1

/-- `scheme_make_rational` returns, without an overflow, such an object. -/
def Reduces (stale : SchemeType) (n d : ℤ) : Prop :=
  ∃ rat, Reduced n d rat ∧ ∃ N, ∀ fuel ≥ N, schemeMakeRational stale fuel n d = some rat

/-! ## The loop -/

theorem gcd_succ (h : a ≤ b) : gcd (fuel + 1) a b =
    if IsInt (b - a) then if b - a ≠ 0 then gcd fuel a (b - a) else some a else none := by
  rw [gcd, if_neg (Int.not_lt.mpr h)]

/-- The numbers are taken in order. -/
theorem gcd_swap (h : b < a) : gcd (fuel + 1) a b = gcd (fuel + 1) b a := by
  rw [gcd, gcd, if_pos h, if_neg (Int.lt_asymm h)]

/-- **The loop ends** for positive numbers, with their greatest common divisor. -/
theorem gcd_eq (ha : 1 ≤ a) (hb : 1 ≤ b) (hia : IsInt a) (hib : IsInt b) (h : a + b ≤ fuel) :
    gcd fuel a b = some (Int.gcd a b : ℤ) := by
  induction fuel generalizing a b with
  | zero => omega
  | succ fuel ih =>
    have hordered {a b : ℤ} (ha : 1 ≤ a) (hab : a ≤ b) (hia : IsInt a) (hib : IsInt b)
        (h : a + b ≤ (fuel + 1 : ℕ)) : gcd (fuel + 1) a b = some (Int.gcd a b : ℤ) := by
      have hint : IsInt (b - a) := by
        unfold IsInt at hib ⊢
        omega
      rw [gcd_succ hab, if_pos hint]
      split_ifs with hne
      · rw [ih ha (by omega) hia hint (by omega), Int.gcd_sub_self_right]
      · obtain rfl : a = b := by omega
        rw [Int.gcd_self, Int.natAbs_of_nonneg (by omega)]
    rcases Int.lt_or_le b a with hlt | hle
    · rw [gcd_swap hlt, Int.gcd_comm]
      exact hordered hb (Int.le_of_lt hlt) hib hia (by omega)
    · exact hordered ha hle hia hib h

/-- **The loop does not end** when one number is 0 or negative: the other one does not get less. -/
theorem gcd_eq_none (ha : a ≤ 0) (hb : 1 ≤ b) : gcd fuel a b = none := by
  induction fuel generalizing b with
  | zero => rfl
  | succ fuel ih =>
    rw [gcd_succ (by omega)]
    split_ifs with hint hne
    · exact ih (by omega)
    · omega
    · rfl

/-! ## Rational numbers -/

/-- A positive number divided by a positive divisor. -/
theorem div?_of_dvd {k : ℤ} (ha : 1 ≤ a) (hk : 0 < k) : div? a k = some (a / k) := by
  rw [div?, if_neg (by omega), Int.tdiv_eq_ediv_of_nonneg (by omega)]

/-- Positive numbers divided by their greatest common divisor. -/
theorem reduces_of_pos (hn : 1 ≤ n) (hd : 1 ≤ d) (hin : IsInt n) (hid : IsInt d) :
    Reduces .rational n d := by
  have hgcd : 0 < Int.gcd n d := Int.gcd_pos_of_ne_zero_left d (by omega)
  have hpos : 0 < (Int.gcd n d : ℤ) := by omega
  refine ⟨⟨.rational, n / Int.gcd n d, d / Int.gcd n d⟩, ⟨rfl, ?_, ?_, ?_⟩, (n + d).toNat,
    fun fuel hfuel => ?_⟩
  · calc n / Int.gcd n d * d = n / Int.gcd n d * (d / Int.gcd n d * Int.gcd n d) := by
          rw [Int.ediv_mul_cancel (Int.gcd_dvd_right ..)]
      _ = n / Int.gcd n d * Int.gcd n d * (d / Int.gcd n d) := by ac_rfl
      _ = n * (d / Int.gcd n d) := by rw [Int.ediv_mul_cancel (Int.gcd_dvd_left ..)]
  · have hle : (Int.gcd n d : ℤ) ≤ d := Int.le_of_dvd (by omega) (Int.gcd_dvd_right ..)
    exact Int.le_ediv_of_mul_le hpos (by rwa [Int.one_mul])
  · exact Int.gcd_ediv_gcd_ediv_gcd hgcd
  · rw [schemeMakeRational, gcd_eq hn hd hin hid (by omega)]
    simp only [Option.bind_eq_bind, Option.bind_some, div?_of_dvd hn hpos, div?_of_dvd hd hpos]
    rfl

/-- **Rational numbers are made** of positive numerators, in objects that were rational numbers
before. -/
theorem reduces_iff (hd : 1 ≤ d) (hin : IsInt n) (hid : IsInt d) :
    Reduces stale n d ↔ 1 ≤ n ∧ stale = .rational := by
  constructor
  · rintro ⟨rat, hrat, N, hN⟩
    have hrun := hN N (Nat.le_refl N)
    by_cases hn : 1 ≤ n
    · refine ⟨hn, ?_⟩
      obtain ⟨k, -, hrun⟩ := Option.bind_eq_some_iff.mp hrun
      obtain ⟨v1, -, hrun⟩ := Option.bind_eq_some_iff.mp hrun
      obtain ⟨v2, -, hrun⟩ := Option.bind_eq_some_iff.mp hrun
      obtain rfl := Option.some.inj hrun
      exact hrat.type
    · rw [schemeMakeRational, gcd_eq_none (by omega) hd] at hrun
      cases hrun
  · rintro ⟨hn, rfl⟩
    exact reduces_of_pos hn hd hin hid

theorem reduces_iff_half : Reduces .rational 2 4 ↔ 1 ≤ (2 : ℤ) ∧ SchemeType.rational = .rational :=
  reduces_iff (by decide) (by decide) (by decide)

/-- From 0 nothing is subtracted, again and again. -/
theorem not_reduces : ¬∀ (stale : SchemeType) (n d : ℤ), 1 ≤ d → IsInt n → IsInt d →
    Reduces stale n d := by
  intro h
  obtain ⟨rat, -, N, hN⟩ := h .rational 0 1 (by decide) (by decide) (by decide)
  have hrun := hN N (Nat.le_refl N)
  rw [schemeMakeRational, gcd_eq_none (by decide) (by decide)] at hrun
  cases hrun

end Rationals

end SchemeOs
