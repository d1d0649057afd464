import SchemeOs.Compiler.Addition
import SchemeOs.Compiler.Convert
import SchemeOs.Machinery.Literals

/-!
# Compiler/Kept — which constants come through the C file

A constant goes into the C file as text and comes back as an object: a number shifted under its tag,
a character as an index of `scheme_ascii`, a string or a symbol as a C literal and its length.
`emitted` is the datum that comes back, if one does.  It is the constant of the program (`Kept`) for
numbers with room for the tag, characters that Haskell and C write alike, and lists of these.

Nothing comes back for a vector or an abbreviation, which `createConsts` takes no case for, nor for
a string whose C literal has another length than is declared for it.
-/

namespace SchemeOs.Compiler

variable {d : Datum} {ds : List Datum} {s : List Char} {c : Char}

/-- The range of a tagged integer. -/
def Tagged (v : ℤ) : Prop := -2 ^ 30 ≤ v ∧ v < 2 ^ 30

instance (v : ℤ) : Decidable (Tagged v) := inferInstanceAs (Decidable (_ ∧ _))

theorem bmod_eq_iff_tagged {v : ℤ} : v.bmod (2 ^ 31) = v ↔ Tagged v := by
  rw [Tagged, Int.bmod_def]
  split <;> omega

/-! ## What comes back -/

/-- The characters of a C literal, if they are as many as declared. -/
def emittedText (s : List Char) : Option (List Char) :=
  (cString (showString s)).filter fun s' => s'.length = s.length

/-- The character whose index `scheme_ascii` is given. -/
def emittedChar (c : Char) : Option Char := (cChar (showChar c)).filter fun c' => c'.toNat < 256

mutual

/-- The datum that the constant of the C file is. -/
def emitted : Datum → Option Datum
  | .void => some .void
  | .boolean b => some (.boolean b)
  | .number n => some (.number (schemeObjToInt (schemeIntToObj n)))
  | .character c => (emittedChar c).map .character
  | .string s => (emittedText s).map .string
  | .symbol (.sym s) => (emittedText s).map fun s' => .symbol (.sym s')
  | .symbol .nil => none
  | .list ds => (emittedAll ds).map .list
  | .sExp [] _ => none
  | .sExp (d :: ds) last =>
    (emittedAll (d :: ds)).bind fun ds' => (emitted last).map (.sExp ds')
  | .abbrev _ _ => none
  | .vector _ => none

/-- `emitted`, for every element. -/
def emittedAll : List Datum → Option (List Datum)
  | [] => some []
  | d :: ds => (emitted d).bind fun d' => (emittedAll ds).map (d' :: ·)

end

/-! ## What is kept -/

mutual

/-- The constants that come back as they are. -/
def Kept : Datum → Prop
  | .void => True
  | .boolean _ => True
  | .number n => Tagged n
  | .character c => emittedChar c = some c
  | .string s => ∀ c ∈ s, Shared c
  | .symbol (.sym s) => ∀ c ∈ s, Shared c
  | .symbol .nil => False
  | .list ds => AllKept ds
  | .sExp ds last => ds ≠ [] ∧ AllKept ds ∧ Kept last
  | .abbrev _ _ => False
  | .vector _ => False

/-- `Kept`, for every element. -/
def AllKept : List Datum → Prop
  | [] => True
  | d :: ds => Kept d ∧ AllKept ds

end

theorem emittedText_eq_iff : emittedText s = some s ↔ ∀ c ∈ s, Shared c := by
  rw [emittedText, Option.filter_eq_some_iff, cString_showString]
  simp

/-- A printable character comes back. -/
theorem emittedChar_printable (hlow : ' ' ≤ c) (hhigh : c ≤ '~') : emittedChar c = some c := by
  have hlt : c.toNat < 256 := lt_of_le_of_lt (UInt32.le_iff_toNat_le.mp hhigh) (by decide)
  rw [emittedChar, cChar_showChar hlow hhigh, Option.filter_some, if_pos (decide_eq_true hlt)]

mutual

/-- **A constant comes back as it is** exactly when it is kept. -/
theorem emitted_eq_iff : (d : Datum) → (emitted d = some d ↔ Kept d)
  | .void => by simp [emitted, Kept]
  | .boolean b => by simp [emitted, Kept]
  | .number n => by
    rw [emitted, Kept, Option.some.injEq, Datum.number.injEq, schemeObjToInt_intToObj,
      bmod_eq_iff_tagged]
  | .character c => by simp [emitted, Kept]
  | .string s => by simp [emitted, Kept, ← emittedText_eq_iff]
  | .symbol (.sym s) => by simp [emitted, Kept, ← emittedText_eq_iff]
  | .symbol .nil => by simp [emitted, Kept]
  | .list ds => by simp [emitted, Kept, emittedAll_eq_iff ds]
  | .sExp [] last => by simp [emitted, Kept]
  | .sExp (d :: ds) last => by
    simp [emitted, Kept, emittedAll_eq_iff (d :: ds), emitted_eq_iff last, Option.bind_eq_some_iff]
  | .abbrev _ _ => by simp [emitted, Kept]
  | .vector _ => by simp [emitted, Kept]

theorem emittedAll_eq_iff : (ds : List Datum) → (emittedAll ds = some ds ↔ AllKept ds)
  | [] => by simp [emittedAll, AllKept]
  | d :: ds => by
    simp [emittedAll, AllKept, emitted_eq_iff d, emittedAll_eq_iff ds, Option.bind_eq_some_iff]

end

end SchemeOs.Compiler
