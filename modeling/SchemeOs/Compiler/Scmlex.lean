import Mathlib.Data.Bool.AllAny
import SchemeOs.Compiler.CFileRuns
import SchemeOs.Compiler.Kept

/-!
# Compiler/Scmlex — lexemes, and the constants that come of them

The rules of `Scmlex.x` for identifiers, strings and numbers, with their actions.  A string passes
through three languages of escapes: Scheme's, which the lexer takes off, Haskell's, in which `show`
writes the declaration, and C's, in which it is read.  A number passes through `read`, which knows
neither a plus sign nor `#`, and through a tag.
-/

namespace SchemeOs.Compiler

open CFile

variable {fuel : ℕ} {s t : CompileTimeState} {w : List Event} {cs : List Char}

/-! ## Identifiers -/

/-- `$initial`. -/
def isInitial (c : Char) : Bool := c.isAlpha || c ∈ "!$%&*/:<=>?^_~".toList

/-- `$subsequent`. -/
def isSubsequent (c : Char) : Bool := isInitial c || c.isDigit || c ∈ "+-.@".toList

/-- `$peculiarId`. -/
def isPeculiar (c : Char) : Bool := c ∈ "+-*/".toList

/-- The rule `@identifier`. -/
def isIdentifier : List Char → Bool
  | [] => false
  | c :: cs => isInitial c && cs.all isSubsequent || isPeculiar c && cs.isEmpty

/-- A lexeme of `@identifier`. -/
structure Identifier where
  lexeme : List Char
  valid : isIdentifier lexeme

/-- The action of the rule: `map toLower`. -/
def Identifier.name (i : Identifier) : Text := i.lexeme.map Char.toLower

/-! ## Strings

The lexeme of a string keeps its escapes, and its value is what they stand for. -/

/-- `@stringelm`. -/
inductive StringElm where
  | char (c : Char) (h : c ≠ '\n' ∧ c ≠ '"' ∧ c ≠ '\\')
  | quote
  | backslash

/-- The text of an element. -/
def StringElm.text : StringElm → List Char
  | .char c _ => [c]
  | .quote => ['\\', '"']
  | .backslash => ['\\', '\\']

/-- The character that an element denotes. -/
def StringElm.value : StringElm → Char
  | .char c _ => c
  | .quote => '"'
  | .backslash => '\\'

/-- A lexeme of `@string`. -/
def stringLexeme (es : List StringElm) : List Char := '"' :: es.flatMap StringElm.text ++ ['"']

/-- `slice`. -/
def slice : List Char → ℕ → ℕ → List Char
  | [], _, _ => []
  | x :: xs, n, m =>
    if m ≤ n then []
    else if 0 < n then slice xs (n - 1) (m - 1)
    else x :: slice xs 0 (m - 1)

/-- `convertStr`, which needs a character behind a backslash. -/
def convertStr : List Char → Option (List Char)
  | [] => some []
  | [x] => if x = '\\' then none else some [x]
  | x :: y :: xs =>
    if x = '\\' then (convertStr xs).map (y :: ·) else (convertStr (y :: xs)).map (x :: ·)

/-- `getString`. -/
def getString (s : List Char) : Option (List Char) := convertStr (slice s 1 (s.length - 1))

theorem slice_zero (cs rest : List Char) : slice (cs ++ rest) 0 cs.length = cs := by
  induction cs with
  | nil => cases rest <;> rfl
  | cons c cs ih =>
    rw [List.cons_append, slice, if_neg (by simp), if_neg (by simp), List.length_cons,
      Nat.add_sub_cancel, ih]

/-- What is between the quotes. -/
theorem slice_quoted (cs : List Char) :
    slice ('"' :: cs ++ ['"']) 1 (('"' :: cs ++ ['"']).length - 1) = cs := by
  have hlen : ('"' :: cs ++ ['"']).length - 1 = cs.length + 1 := by simp
  rw [hlen, List.cons_append, slice]
  by_cases h : cs = []
  · rw [h]
    rfl
  · have hpos := List.length_pos_iff.mpr h
    rw [if_neg (by omega), if_pos (by omega), Nat.sub_self, Nat.add_sub_cancel, slice_zero]

theorem convertStr_text (es : List StringElm) :
    convertStr (es.flatMap StringElm.text) = some (es.map StringElm.value) := by
  induction es with
  | nil => rfl
  | cons e es ih =>
    rw [List.flatMap_cons, List.map_cons]
    cases e with
    | char c h =>
      change convertStr (c :: es.flatMap StringElm.text) = _
      cases hrest : es.flatMap StringElm.text with
      | nil =>
        rw [hrest] at ih
        rw [convertStr, if_neg h.2.2, ← Option.some.inj ih]
        rfl
      | cons y xs => rw [convertStr, if_neg h.2.2, ← hrest, ih]; rfl
    | quote =>
      change convertStr ('\\' :: '"' :: es.flatMap StringElm.text) = _
      rw [convertStr, if_pos rfl, ih]
      rfl
    | backslash =>
      change convertStr ('\\' :: '\\' :: es.flatMap StringElm.text) = _
      rw [convertStr, if_pos rfl, ih]
      rfl

/-- **The lexer resolves the escapes** of every string. -/
theorem getString_lexeme (es : List StringElm) :
    getString (stringLexeme es) = some (es.map StringElm.value) := by
  rw [getString, stringLexeme, slice_quoted, convertStr_text]

/-- The initialiser of a declaration, as a C compiler reads it. -/
def Decl.initialiser : Decl → Option (List Char)
  | .string _ s => cString (showString s)
  | _ => none

/-- `createConsts` declares the characters `cs`, as C reads them, and a constant of the type `proto`
that points to them and has their number. -/
def DeclaresText (proto : Proto) (fuel : ℕ) (d : Datum) (s : CompileTimeState)
    (cs : List Char) : Prop :=
  ∃ cl t w str l n, (CFile.createConsts fuel d).run s = (some (.label cl, t), w) ∧
    t.2.dataField = s.2.dataField ++ [str, .const proto cl [.name l, .length n]] ∧
    str.label = l ∧ str.initialiser = some cs ∧ n = cs.length

/-- A string without a label yet is declared as C reads what `show` writes. -/
theorem declaresText_iff {proto : Proto} {d : Datum} {str : List Char}
    (hd : ∃ t w, (CFile.createConsts fuel d).run s =
        (some (.label (dataLabel proto.text [] (s.1.valueLabel + 1)), t), w) ∧
      t.2.dataField = s.2.dataField ++
        [.string (dataLabel "c_string".toList [] s.1.valueLabel) str,
          .const proto (dataLabel proto.text [] (s.1.valueLabel + 1))
            [.name (dataLabel "c_string".toList [] s.1.valueLabel), .length str.length]]) :
    DeclaresText proto fuel d s cs ↔
      cString (showString str) = some cs ∧ str.length = cs.length := by
  obtain ⟨t, w, hrun, hdata⟩ := hd
  constructor
  · rintro ⟨cl, t', w', decl, l, n, hrun', hdata', -, hinit, hlen⟩
    rw [hrun] at hrun'
    cases hrun'
    rw [hdata] at hdata'
    cases List.append_cancel_left hdata'
    exact ⟨hinit, hlen⟩
  · rintro ⟨hread, hlen⟩
    exact ⟨_, t, w, _, _, _, hrun, hdata, rfl, hread, hlen⟩

theorem createConsts_string_run (fuel : ℕ) (str : List Char) (s : CompileTimeState) :
    ∃ t w, (CFile.createConsts (fuel + 1) (.string str)).run s =
        (some (.label (dataLabel Proto.string.text [] (s.1.valueLabel + 1)), t), w) ∧
      t.2.dataField = s.2.dataField ++
        [.string (dataLabel "c_string".toList [] s.1.valueLabel) str,
          .const .string (dataLabel Proto.string.text [] (s.1.valueLabel + 1))
            [.name (dataLabel "c_string".toList [] s.1.valueLabel), .length str.length]] :=
  ⟨_, _, rfl, by simp⟩

theorem createConsts_symbol_run (fuel : ℕ) {name : Text}
    (hnew : s.1.symbolTab.lookup (.sym name) = none) :
    ∃ t w, (CFile.createConsts (fuel + 1) (.symbol (.sym name))).run s =
        (some (.label (dataLabel Proto.symbol.text [] (s.1.valueLabel + 1)), t), w) ∧
      t.2.dataField = s.2.dataField ++
        [.string (dataLabel "c_string".toList [] s.1.valueLabel) name,
          .const .symbol (dataLabel Proto.symbol.text [] (s.1.valueLabel + 1))
            [.name (dataLabel "c_string".toList [] s.1.valueLabel), .length name.length]] := by
  rw [run_createConsts_symbol_none fuel hnew]
  exact ⟨_, _, rfl, by simp⟩

/-- The characters of identifiers are ASCII. -/
theorem lt_of_isSubsequent {c : Char} (h : isSubsequent c) : c.toNat < 127 := by
  have hspecial : ∀ c ∈ "!$%&*/:<=>?^_~".toList ++ "+-.@".toList, c.toNat < 127 :=
    List.all_iff_forall_prop.mp (by decide)
  rw [isSubsequent, isInitial, Bool.or_eq_true, Bool.or_eq_true, Bool.or_eq_true,
    decide_eq_true_eq, decide_eq_true_eq] at h
  rcases h with ((h | h) | h) | h
  · rw [Char.isAlpha, Bool.or_eq_true, Char.isUpper, Char.isLower, Bool.and_eq_true,
      decide_eq_true_eq, decide_eq_true_eq, decide_eq_true_eq] at h
    rcases h with h | h
    · exact Nat.lt_of_le_of_lt (UInt32.le_iff_toNat_le.mp h.2) (by decide)
    · exact Nat.lt_of_le_of_lt (UInt32.le_iff_toNat_le.mp h.2) (by decide)
  · exact hspecial c (List.mem_append_left _ h)
  · exact Nat.lt_of_le_of_lt (Char.isDigit_iff_toNat.mp h).2 (by decide)
  · exact hspecial c (List.mem_append_right _ h)

/-- A character of an identifier is printed as it is. -/
theorem shared_of_isSubsequent {c : Char} (h : isSubsequent c) : Shared c.toLower := by
  have hall : ∀ n < 127, isSubsequent (Char.ofNat n) → Shared (Char.ofNat n).toLower := by
    decide +kernel
  have hc := hall c.toNat (lt_of_isSubsequent h)
  rw [Char.ofNat_toNat] at hc
  exact hc h

theorem Identifier.shared (i : Identifier) : ∀ c ∈ i.name, Shared c := by
  obtain ⟨lexeme, hvalid⟩ := i
  intro c hc
  obtain ⟨d, hd, rfl⟩ := List.mem_map.mp hc
  refine shared_of_isSubsequent ?_
  cases lexeme with
  | nil => cases hd
  | cons e es =>
    rw [isIdentifier, Bool.or_eq_true, Bool.and_eq_true, Bool.and_eq_true] at hvalid
    rcases hvalid with ⟨he, hes⟩ | ⟨he, hes⟩
    · rcases List.mem_cons.mp hd with rfl | hd
      · rw [isSubsequent, he]
        rfl
      · exact List.all_eq_true.mp hes d hd
    · have hde : d = e := by
        rcases List.mem_cons.mp hd with h | h
        · exact h
        · rw [List.isEmpty_iff.mp hes] at h
          cases h
      have hall : ∀ c ∈ "+-*/".toList, isSubsequent c := List.all_eq_true.mp (by decide)
      exact hde ▸ hall e (decide_eq_true_eq.mp he)

/-- A string is declared as it is when the two languages share its characters. -/
theorem string_declared_iff (es : List StringElm) (fuel : ℕ) (s : CompileTimeState) :
    (∃ str, getString (stringLexeme es) = some str ∧
      DeclaresText .string (fuel + 1) (.string str) s (es.map StringElm.value)) ↔
        ∀ e ∈ es, Shared e.value := by
  rw [getString_lexeme, ← List.forall_mem_map (f := StringElm.value) (P := Shared),
    ← cString_showString]
  constructor
  · rintro ⟨str, hstr, h⟩
    cases hstr
    exact ((declaresText_iff (createConsts_string_run fuel _ s)).mp h).1
  · exact fun h => ⟨_, rfl, (declaresText_iff (createConsts_string_run fuel _ s)).mpr ⟨h, rfl⟩⟩

/-- **Which strings reach the C program**: those whose characters `show` writes as C would, and the
names of all symbols. -/
theorem strings_declared_iff (es : List StringElm) (i : Identifier) (fuel : ℕ)
    (s : CompileTimeState) :
    ((∃ str, getString (stringLexeme es) = some str ∧
      DeclaresText .string (fuel + 1) (.string str) s (es.map StringElm.value)) ↔
        ∀ e ∈ es, Shared e.value) ∧
    (s.1.symbolTab.lookup (.sym i.name) = none →
      DeclaresText .symbol (fuel + 1) (.symbol (.sym i.name)) s i.name) :=
  ⟨string_declared_iff es fuel s, fun hnew =>
    (declaresText_iff (createConsts_symbol_run fuel hnew)).mpr
    ⟨(cString_showString i.name).mpr i.shared, rfl⟩⟩

/-- **The slip of the strings**: a letter with an accent is written in decimal and read in octal. -/
theorem not_strings_declared : ¬ ∀ es fuel s, ∃ str, getString (stringLexeme es) = some str ∧
    DeclaresText .string (fuel + 1) (.string str) s (es.map StringElm.value) := by
  intro hall
  have hshared := (string_declared_iff [.char (Char.ofNat 233) (by decide)] 0
    (initState [] [])).mp (hall _ _ _)
  exact absurd (hshared _ List.mem_cons_self) (by decide)

/-! ## Numbers

`read` takes digits and a minus sign; the other signs and radixes of the lexer it does not know. -/

/-- `@sign`. -/
inductive Sign where
  | none
  | plus
  | minus
  deriving DecidableEq

/-- The text of a sign. -/
def Sign.text : Sign → List Char
  | .none => []
  | .plus => ['+']
  | .minus => ['-']

/-- A lexeme of `@sign @uinteger10`: a sign, digits and hashes. -/
structure NumberLexeme where
  sign : Sign
  digits : List Char
  hashes : ℕ
  isDigits : digits ≠ [] ∧ ∀ c ∈ digits, c.isDigit

/-- The text of a number. -/
def NumberLexeme.text (l : NumberLexeme) : List Char :=
  l.sign.text ++ l.digits ++ List.replicate l.hashes '#'

/-- The value of digits. -/
def digitsValue (ds : List Char) : ℕ := Nat.ofDigitChars 10 ds 0

/-- The integer that a number denotes; a hash is a digit that does not matter. -/
def NumberLexeme.denotes (l : NumberLexeme) : ℤ :=
  let n : ℤ := digitsValue l.digits * 10 ^ l.hashes
  if l.sign = .minus then -n else n

/-- `read`, of digits. -/
def readDigits (s : List Char) : Option ℕ :=
  if s ≠ [] ∧ s.all Char.isDigit then some (digitsValue s) else none

/-- `read`, of an `Int` of 32 bits: a minus sign and digits, without regard to overflow. -/
def readInt : List Char → Option ℤ
  | '-' :: s => (readDigits s).map fun n => (-n : ℤ).bmod (2 ^ 32)
  | s => (readDigits s).map fun n => (n : ℤ).bmod (2 ^ 32)

/-- The text of a number after its sign, for `read`. -/
theorem readDigits_text (l : NumberLexeme) :
    readDigits (l.digits ++ List.replicate l.hashes '#') =
      if l.hashes = 0 then some (digitsValue l.digits) else none := by
  split
  · next h =>
    rw [h, List.replicate_zero, List.append_nil, readDigits,
      if_pos ⟨l.isDigits.1, List.all_eq_true.mpr l.isDigits.2⟩]
  · next h =>
    rw [readDigits, if_neg]
    rintro ⟨-, hall⟩
    have hhash := List.all_eq_true.mp hall '#'
      (List.mem_append_right _ (List.mem_replicate.mpr ⟨h, rfl⟩))
    exact absurd hhash (by decide)

/-- **What `read` accepts**: no plus sign and no hashes. -/
theorem readInt_text (l : NumberLexeme) : readInt l.text =
    if l.sign ≠ .plus ∧ l.hashes = 0 then some (l.denotes.bmod (2 ^ 32)) else none := by
  obtain ⟨c, ds, hds⟩ := List.exists_cons_of_ne_nil l.isDigits.1
  have hc : c.isDigit := l.isDigits.2 c (hds ▸ List.mem_cons_self)
  have hminus : c ≠ '-' := by
    rintro rfl
    exact absurd hc (by decide)
  have hdigits := readDigits_text l
  rw [NumberLexeme.text, NumberLexeme.denotes]
  cases l.sign with
  | none =>
    change readInt (l.digits ++ List.replicate l.hashes '#') = _
    have hread : readInt (l.digits ++ List.replicate l.hashes '#') =
        (readDigits (l.digits ++ List.replicate l.hashes '#')).map fun n =>
          (n : ℤ).bmod (2 ^ 32) := by
      rw [hds, List.cons_append, readInt]
      rintro s' heq
      exact hminus (List.cons.inj heq).1
    rw [hread, hdigits]
    by_cases h : l.hashes = 0 <;> simp [h]
  | minus =>
    change readInt ('-' :: (l.digits ++ List.replicate l.hashes '#')) = _
    rw [readInt, hdigits]
    by_cases h : l.hashes = 0 <;> simp [h]
  | plus =>
    change readInt ('+' :: (l.digits ++ List.replicate l.hashes '#')) = _
    rw [readInt, readDigits, if_neg]
    · simp
    · exact fun h => absurd (List.all_eq_true.mp h.2 '+' List.mem_cons_self) (by decide)
    · exact fun s' heq => absurd (List.cons.inj heq).1 (by decide)

/-- The lexeme is treated as it should be: the action gives the integer that it denotes, the
constant of a tagged integer decodes to it, and an integer out of range is rejected. -/
def NumberLexeme.Kept (l : NumberLexeme) : Prop :=
  readInt l.text = some l.denotes ∧
    (Tagged l.denotes → ∀ fuel s, ∃ t w, (CFile.createConsts (fuel + 1) (.number l.denotes)).run s =
      (some (.int l.denotes, t), w) ∧ schemeObjToInt (schemeIntToObj l.denotes) = l.denotes) ∧
    (¬Tagged l.denotes → ∀ fuel s, ((CFile.createConsts fuel (.number l.denotes)).run s).1 = none)

/-- **Which numbers are kept**: those without a plus sign and without hashes that fit into a tagged
integer. -/
theorem number_kept_iff (l : NumberLexeme) :
    l.Kept ↔ l.sign ≠ .plus ∧ l.hashes = 0 ∧ Tagged l.denotes := by
  constructor
  · rintro ⟨hread, -, hreject⟩
    have htagged : Tagged l.denotes := by
      by_contra h
      exact nomatch hreject h 1 (initState [] [])
    rw [readInt_text] at hread
    split at hread
    · next h => exact ⟨h.1, h.2, htagged⟩
    · cases hread
  · rintro ⟨hsign, hhashes, htagged⟩
    refine ⟨?_, fun _ fuel s => ⟨s, _, rfl, ?_⟩, fun h => absurd htagged h⟩
    · rw [readInt_text, if_pos ⟨hsign, hhashes⟩, Int.bmod_def]
      have hlow := htagged.1
      have hhigh := htagged.2
      congr 1
      split <;> omega
    · rw [schemeObjToInt_intToObj, bmod_eq_iff_tagged.mpr htagged]

/-- **The slips of the numbers**, of which the first is the plus sign. -/
theorem not_number_kept : ¬∀ l : NumberLexeme, l.Kept := by
  intro h
  have hread := (h ⟨.plus, ['5'], 0, List.cons_ne_nil _ _, List.all_eq_true.mp (by decide)⟩).1
  rw [readInt_text, if_neg fun hsign => hsign.1 rfl] at hread
  cases hread

end SchemeOs.Compiler
