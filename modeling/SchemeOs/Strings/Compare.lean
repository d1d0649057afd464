import Mathlib.Data.List.Infix
import SchemeOs.Reader.Lexer

/-!
# Strings/Compare — the comparisons of `include/string.h`

`strcmp` and `strcasecmp` stop at the first NUL of either string and return the last difference.
When it is the end of one string that stops them this is 0, however long the other one is.  The
macros of `include/ctype.h` have no letter: `isalpha` asks for one that is of both cases.
-/

namespace SchemeOs.Strings

/-- `'\0'` -/
def nul : Char := '\x00'

/-! ## Characters -/

def isupper (c : Char) : Bool := charVal c ≤ charVal 'Z' && charVal c ≥ charVal 'A'

def islower (c : Char) : Bool := charVal c ≤ charVal 'z' && charVal c ≥ charVal 'a'

def isalpha (c : Char) : Bool := isupper c && islower c

/-- `tolower`, of which the value is an `int`. -/
def tolower (c : Char) : ℤ := if isalpha c then (0x20 ||| c.toNat : ℕ) else charVal c

/-! ## Comparisons -/

/-- The loop of `strcmp` and of `strcasecmp`, with `__res`: it subtracts the values of two
characters.  A string is the rest of a buffer up to the NUL at its end. -/
def compareFrom (val : Char → ℤ) (res : ℤ) : List Char → List Char → ℤ
  | c :: s₁, d :: s₂ =>
    if c ≠ nul ∧ d ≠ nul then
      let res := val c - val d
      if res = 0 then compareFrom val res s₁ s₂ else res
    else
      res
  | _, _ => res

def strcmp (s₁ s₂ : List Char) : ℤ := compareFrom charVal 0 s₁ s₂

def strcasecmp (s₁ s₂ : List Char) : ℤ := compareFrom tolower 0 s₁ s₂

/-! ## Which strings are the same

The loops stop where either string ends, so that a prefix passes for the whole. -/

/-- The characters have eight bits, and none is a NUL. -/
def IsCString (s : List Char) : Prop := ∀ c ∈ s, c ≠ nul ∧ c.toNat < 0x100

variable {c d : Char} {s₁ s₂ : List Char} {val : Char → ℤ}

/-- No character is a letter. -/
theorem isalpha_eq_false (c : Char) : isalpha c = false := by
  have hZ : charVal 'Z' = 90 := rfl
  have ha : charVal 'a' = 97 := rfl
  unfold isalpha isupper islower
  rw [hZ, ha]
  simp only [Bool.and_eq_false_iff, decide_eq_false_iff_not]
  omega

/-- No character is changed to lower case. -/
theorem tolower_eq (c : Char) : tolower c = charVal c := by
  rw [tolower, isalpha_eq_false]
  rfl

theorem strcasecmp_eq (s₁ s₂ : List Char) : strcasecmp s₁ s₂ = strcmp s₁ s₂ := by
  rw [strcasecmp, strcmp, show tolower = charVal from funext tolower_eq]

theorem charVal_injective (hc : c.toNat < 0x100) (hd : d.toNat < 0x100)
    (h : charVal c = charVal d) : c = d := by
  unfold charVal at h
  refine Char.ext (UInt32.toNat.inj ?_)
  change c.toNat = d.toNat
  split_ifs at h <;> omega

/-- **Comparing**: no difference is found when one string is the beginning of the other. -/
theorem strcmp_eq_zero (h₁ : IsCString s₁) (h₂ : IsCString s₂) :
    strcmp s₁ s₂ = 0 ↔ s₁ <+: s₂ ∨ s₂ <+: s₁ := by
  unfold strcmp
  induction s₁ generalizing s₂ with
  | nil => exact iff_of_true rfl (.inl List.nil_prefix)
  | cons c s₁ ih =>
    cases s₂ with
    | nil => exact iff_of_true rfl (.inr List.nil_prefix)
    | cons d s₂ =>
      obtain ⟨hc, hs₁⟩ := List.forall_mem_cons.mp h₁
      obtain ⟨hd, hs₂⟩ := List.forall_mem_cons.mp h₂
      rw [compareFrom, if_pos ⟨hc.1, hd.1⟩, List.cons_prefix_cons, List.cons_prefix_cons]
      dsimp only
      split_ifs with hres
      · obtain rfl := charVal_injective hc.2 hd.2 (Int.sub_eq_zero.mp hres)
        rw [hres, ih hs₁ hs₂]
        simp
      · refine iff_of_false hres ?_
        rintro (⟨rfl, -⟩ | ⟨rfl, -⟩) <;> exact hres (Int.sub_self _)

end SchemeOs.Strings
