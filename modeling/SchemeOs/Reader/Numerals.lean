import SchemeOs.Machinery.Ints
import SchemeOs.Machinery.Numerals
import SchemeOs.Reader.Formats

/-!
# Reader/Numerals — the numerals that `%d` and `%x` write

`__itoaU_dec` and `__itoaU_hex` skip leading zeros and write the digits from the first one on: the
numeral of an unsigned number.  `%d` passes its argument to the former as it is, so a negative
number is written as the number 2 ^ 32 above it.
-/

namespace SchemeOs

variable {k n : ℕ}

/-! ## Decimal numerals -/

theorem digitChar_eq : ∀ d < 10, digitChar d = Nat.digitChar d := by decide

theorem itoaDigits_eq (hn : n < 10 ^ (k + 1)) :
    itoaDigits k n = (digitsOf 10 (k + 1) n).map Nat.digitChar := by
  induction k generalizing n with
  | zero =>
    have hlt : n < 10 := by simpa using hn
    rw [itoaDigits, digitsOf, digitsOf, List.nil_append, List.map_singleton, Nat.mod_eq_of_lt hlt,
      digitChar_eq n hlt]
  | succ k ih =>
    have hpos : 0 < 10 ^ (k + 1) := Nat.pow_pos (by decide)
    have hlt : n / 10 ^ (k + 1) < 10 := by
      rw [Nat.div_lt_iff_lt_mul hpos, ← pow_succ']
      exact hn
    rw [itoaDigits, ih (Nat.mod_lt n hpos), digitsOf_mod, digitsOf_succ 10 (k + 1),
      Nat.mod_eq_of_lt hlt, List.map_cons, digitChar_eq _ hlt]

/-- The first digit that is looked for is not 0. -/
theorem itoaStart_le (k n : ℕ) : itoaStart k n = 0 ∨ 10 ^ itoaStart k n ≤ n := by
  induction k with
  | zero => exact .inl rfl
  | succ k ih =>
    rw [itoaStart]
    split_ifs with hzero
    · exact ih
    · refine .inr (Nat.le_of_not_lt fun hlt => hzero (Nat.div_eq_of_lt hlt))

/-- **`__itoaU_dec` writes the decimal numeral.** -/
theorem itoaUDec_eq (hn : n < 2 ^ 32) : itoaUDec n = Nat.toDigits 10 n := by
  unfold itoaUDec
  split_ifs with hzero
  · rw [hzero]
    rfl
  · have hlt := lt_itoaStart (k := 9) (n := n) (by omega)
    rw [itoaDigits_eq hlt, toDigits_eq (by decide) (itoaStart_le 9 n) hlt]

/-! ## Hexadecimal numerals -/

theorem hexToAscii_eq : ∀ d < 16, hexToAscii d = (Nat.digitChar d).toUpper := by decide

/-- The loop over `ct` digits, which have been shifted to the top of the 32 bits. -/
theorem hexDigits_eq {ct j : ℕ} (hj : ct + j = 8) (hn : n < 16 ^ ct) :
    hexDigits ct (n * 16 ^ j) =
      (digitsOf 16 ct n).map fun d => (Nat.digitChar d).toUpper := by
  induction ct generalizing n j with
  | zero => rfl
  | succ ct ih =>
    have hpos : 0 < 16 ^ ct := Nat.pow_pos (by decide)
    have hlt : n / 16 ^ ct < 16 := by
      rw [Nat.div_lt_iff_lt_mul hpos, ← pow_succ']
      exact hn
    have hfirst : n * 16 ^ j / 2 ^ 28 = n / 16 ^ ct := by
      have hpow : 2 ^ 28 = 16 ^ ct * 16 ^ j := by
        rw [← pow_add, show ct + j = 7 by omega]
        rfl
      rw [hpow, Nat.mul_div_mul_right _ _ (Nat.pow_pos (by decide))]
    have hrest : n * 16 ^ j * 2 ^ 4 % 2 ^ 32 = n % 16 ^ ct * 16 ^ (j + 1) := by
      have hpow : 2 ^ 32 = 16 ^ ct * 16 ^ (j + 1) := by
        rw [← pow_add, show ct + (j + 1) = 8 by omega]
        rfl
      rw [hpow, Nat.mul_assoc, show 16 ^ j * 2 ^ 4 = 16 ^ (j + 1) from (pow_succ 16 j).symm,
        Nat.mul_mod_mul_right]
    rw [hexDigits, hfirst, hrest, ih (by omega) (Nat.mod_lt n hpos), digitsOf_mod,
      digitsOf_succ, Nat.mod_eq_of_lt hlt, List.map_cons, hexToAscii_eq _ hlt]

/-- The loop that shifts leading zeros out. -/
theorem skipZeros_eq {ct j : ℕ} (hj : ct + j = 8) (hn : n < 16 ^ ct) (hzero : n ≠ 0) :
    ∃ k i, k + 1 + i = 8 ∧ skipZeros ct (n * 16 ^ j) = (k + 1, n * 16 ^ i) ∧
      16 ^ k ≤ n ∧ n < 16 ^ (k + 1) := by
  induction ct generalizing j with
  | zero => exact absurd (Nat.lt_one_iff.mp hn) hzero
  | succ ct ih =>
    have hpow : 2 ^ 28 = 16 ^ ct * 16 ^ j := by
      rw [← pow_add, show ct + j = 7 by omega]
      rfl
    have hdiv : n * 16 ^ j / 2 ^ 28 = n / 16 ^ ct := by
      rw [hpow, Nat.mul_div_mul_right _ _ (Nat.pow_pos (by decide))]
    rw [skipZeros, hdiv]
    split_ifs with hlead
    · have hlt : n < 16 ^ ct :=
        (Nat.div_eq_zero_iff.mp hlead).resolve_left (Nat.pow_pos (by decide)).ne'
      have hshift : n * 16 ^ j * 2 ^ 4 % 2 ^ 32 = n * 16 ^ (j + 1) := by
        have hbound : n * 16 ^ (j + 1) < 2 ^ 32 := by
          calc n * 16 ^ (j + 1) < 16 ^ ct * 16 ^ (j + 1) :=
                Nat.mul_lt_mul_of_pos_right hlt (Nat.pow_pos (by decide))
            _ = 2 ^ 32 := by
                rw [← pow_add, show ct + (j + 1) = 8 by omega]
                rfl
        rw [Nat.mul_assoc, show 16 ^ j * 2 ^ 4 = 16 ^ (j + 1) from (pow_succ 16 j).symm,
          Nat.mod_eq_of_lt hbound]
      rw [hshift]
      exact ih (by omega) hlt
    · refine ⟨ct, j, hj, rfl, Nat.le_of_not_lt fun hlt => hlead (Nat.div_eq_of_lt hlt), hn⟩

/-- The hexadecimal numeral, in capital letters. -/
def hexadecimal (n : ℕ) : List Char := (Nat.toDigits 16 n).map Char.toUpper

/-- **`__itoaU_hex` writes the hexadecimal numeral.** -/
theorem itoaUHex_eq (hn : n < 2 ^ 32) : itoaUHex n = hexadecimal n := by
  unfold itoaUHex hexadecimal
  split_ifs with hzero
  · rw [hzero]
    rfl
  · obtain ⟨k, i, hi, hskip, hle, hlt⟩ := skipZeros_eq (show 8 + 0 = 8 from rfl) hn hzero
    rw [pow_zero, Nat.mul_one] at hskip
    rw [hskip, hexDigits_eq hi hlt, toDigits_eq (by decide) (.inr hle) hlt, List.map_map]
    rfl

/-! ## `%d` and `%x` -/

/-- The decimal numeral of an integer. -/
def decimal (n : ℤ) : List Char :=
  if n < 0 then '-' :: Nat.toDigits 10 n.natAbs else Nat.toDigits 10 n.natAbs

/-- `%d` and `scheme_obj_to_string` write the decimal numeral of `n`, from which `atoi` gives `n`
back. -/
structure PrintsDecimal (n : ℤ) : Prop where
  text : ∀ mem fmt, StrAt Display.nul mem fmt ['%', 'd'] →
    Format.Leaves mem fmt [(n % 2 ^ 32).toNat] (decimal n)
  object : ∀ mem buf, Display.objToString mem buf (.atom (.int n)) =
    ((decimal n).length, writeAt mem buf (decimal n ++ [Display.nul]))
  back : atoi (decimal n) = n

/-- `%x` writes the hexadecimal numeral of `m`. -/
def PrintsHexadecimal (m : ℕ) : Prop :=
  ∀ mem fmt, StrAt Display.nul mem fmt ['%', 'x'] → Format.Leaves mem fmt [m] (hexadecimal m)

theorem decimal_of_nonneg {n : ℤ} (h : 0 ≤ n) : decimal n = Nat.toDigits 10 n.toNat := by
  rw [decimal, if_neg (by omega), show n.natAbs = n.toNat by omega]

theorem format_dec (n : ℤ) : Display.format "%d" n = itoaUDec (n % 2 ^ 32).toNat := by
  unfold Display.format
  change Display.vsprintf _ ['%', 'd'] = _
  rw [Display.vsprintf, Display.vsprintf, List.append_nil]

/-- A number that is not negative is written as it is. -/
theorem printsDecimal_of_nonneg {n : ℤ} (hn : IsInt n) (h : 0 ≤ n) : PrintsDecimal n := by
  obtain ⟨-, hlt⟩ := hn
  have hmod : (n % 2 ^ 32).toNat = n.toNat := by omega
  have hdec : itoaUDec (n % 2 ^ 32).toNat = decimal n := by
    rw [hmod, itoaUDec_eq (by omega), decimal_of_nonneg h]
  refine ⟨fun mem fmt hfmt => ?_, fun mem buf => ?_, ?_⟩
  · have hx : Format.Expands mem ['%', 'd'] [(n % 2 ^ 32).toNat]
        (itoaUDec (n % 2 ^ 32).toNat ++ []) := .dec (.inl rfl) (by omega) .nil
    have hleaves := Format.leaves_of_expands hx hfmt rfl
    rwa [List.append_nil, hdec] at hleaves
  · rw [← hdec, ← format_dec]
    rfl
  · obtain ⟨hall, hne, hval⟩ := digits_itoaUDec (n := n.toNat) (by omega)
    rw [← hdec, hmod, atoi_eq hall hne (by rw [hval]; omega), hval]
    exact Int.toNat_of_nonneg h

/-- The first character that is written. -/
theorem writeAt_cons_self {κ : Type*} (mem : ℕ → κ) (a : ℕ) (c : κ) (w : List κ) :
    writeAt mem a (c :: w) a = c := by
  rw [writeAt, writeAt_of_lt (Nat.lt_succ_self a), Function.update_self]

/-- A negative number is written without its sign. -/
theorem not_printsDecimal_of_neg {n : ℤ} (h : n < 0) : ¬PrintsDecimal n := by
  intro hprints
  have hlt : (n % 2 ^ 32).toNat < 2 ^ 32 := by omega
  have hobject := congrArg (fun r => r.2 0) (hprints.object (fun _ => Display.nul) 0)
  change writeAt _ 0 (Display.format "%d" n ++ [Display.nul]) 0 = writeAt _ 0 _ 0 at hobject
  rw [format_dec, itoaUDec_eq hlt, decimal, if_pos h, List.cons_append,
    writeAt_cons_self] at hobject
  obtain ⟨c, w, hw⟩ :=
    List.exists_cons_of_ne_nil (Nat.toDigits_ne_nil (n := (n % 2 ^ 32).toNat) (b := 10))
  have hdigit : c.isDigit :=
    Nat.isDigit_of_mem_toDigits (by decide) (by decide) (hw ▸ List.mem_cons_self)
  rw [hw, List.cons_append, writeAt_cons_self] at hobject
  rw [hobject] at hdigit
  exact absurd hdigit (by decide)

theorem printsHexadecimal {m : ℕ} (hm : m < 2 ^ 32) : PrintsHexadecimal m := by
  intro mem fmt hfmt
  have hx : Format.Expands mem ['%', 'x'] [m] (itoaUHex m ++ []) := .hex hm .nil
  have hleaves := Format.leaves_of_expands hx hfmt rfl
  rwa [List.append_nil, itoaUHex_eq hm] at hleaves

/-- **The numerals of `printf`**: `%x` writes that of every unsigned number, and `%d` that of a
number which is not negative. -/
theorem prints_numerals_iff {n : ℤ} {m : ℕ} (hn : IsInt n) (hm : m < 2 ^ 32) :
    PrintsDecimal n ∧ PrintsHexadecimal m ↔ 0 ≤ n := by
  constructor
  · rintro ⟨hprints, -⟩
    by_contra h
    exact not_printsDecimal_of_neg (Int.not_le.mp h) hprints
  · exact fun h => ⟨printsDecimal_of_nonneg hn h, printsHexadecimal hm⟩

theorem prints_numerals_iff_largest : PrintsDecimal 2147483647 ∧ PrintsHexadecimal 4294967295 :=
  (prints_numerals_iff (by decide) (by decide)).mpr (by decide)

theorem not_prints_numerals :
    ¬∀ (n : ℤ) (m : ℕ), IsInt n → m < 2 ^ 32 → PrintsDecimal n ∧ PrintsHexadecimal m := fun h =>
  not_printsDecimal_of_neg (by decide) (h (-1) 0 (by decide) (by decide)).1

end SchemeOs
