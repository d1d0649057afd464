import Mathlib

/-!
# Machinery/Literals — Haskell's `show` and the literals of C

`showString` writes a string as Haskell does, `cString` reads a string literal as C does.  The two
languages share the escapes of a few control characters, of the quote and of the backslash; a C
compiler does not know the names that Haskell gives to the other control characters, and it reads
Haskell's decimal character codes as octal ones.
-/

namespace SchemeOs

/-! ## `show` -/

/-- `protectEsc`: an escape that the next character would prolong is ended by `\&`. -/
def protectEsc (p : Char → Bool) (esc rest : List Char) : List Char :=
  match rest with
  | [] => esc
  | c :: rest => if p c then esc ++ '\\' :: '&' :: c :: rest else esc ++ c :: rest

/-- The names of the control characters. -/
def asciiTab : List String :=
  ["NUL", "SOH", "STX", "ETX", "EOT", "ENQ", "ACK", "BEL", "BS", "HT", "LF", "VT", "FF", "CR",
    "SO", "SI", "DLE", "DC1", "DC2", "DC3", "DC4", "NAK", "SYN", "ETB", "CAN", "EM", "SUB", "ESC",
    "FS", "GS", "RS", "US"]

/-- The control characters that have an escape of one letter. -/
def letterEscape (c : Char) : Option Char :=
  if c = '\x07' then some 'a'
  else if c = '\x08' then some 'b'
  else if c = '\t' then some 't'
  else if c = '\n' then some 'n'
  else if c = '\x0b' then some 'v'
  else if c = '\x0c' then some 'f'
  else if c = '\x0d' then some 'r'
  else none

/-- `showLitChar` -/
def showLitChar (c : Char) (rest : List Char) : List Char :=
  if '\x7f' < c then '\\' :: protectEsc Char.isDigit (Nat.toDigits 10 c.toNat) rest
  else if c = '\x7f' then '\\' :: ("DEL".toList ++ rest)
  else if c = '\\' then '\\' :: '\\' :: rest
  else if ' ' ≤ c then c :: rest
  else match letterEscape c with
    | some e => '\\' :: e :: rest
    | none =>
      if c = '\x0e' then '\\' :: protectEsc (· = 'H') "SO".toList rest
      else '\\' :: ((asciiTab.getD c.toNat "").toList ++ rest)

/-- `showLitString`, in front of `rest`. -/
def showLitString (rest : List Char) : List Char → List Char
  | [] => rest
  | c :: s =>
    if c = '"' then '\\' :: '"' :: showLitString rest s else showLitChar c (showLitString rest s)

/-- `show`, of a string. -/
def showString (s : List Char) : List Char := '"' :: showLitString ['"'] s

/-- `show`, of a character. -/
def showChar (c : Char) : List Char :=
  if c = '\'' then ['\'', '\\', '\'', '\''] else '\'' :: showLitChar c ['\'']

/-! ## Literals of C -/

/-- The escapes of one character. -/
def simpleEscape (c : Char) : Option Char :=
  if c = 'a' then some '\x07'
  else if c = 'b' then some '\x08'
  else if c = 't' then some '\t'
  else if c = 'n' then some '\n'
  else if c = 'v' then some '\x0b'
  else if c = 'f' then some '\x0c'
  else if c = 'r' then some '\x0d'
  else if c = '\\' ∨ c = '"' ∨ c = '\'' ∨ c = '?' then some c
  else none

/-- The value of an octal digit. -/
def octal? (c : Char) : Option ℕ := if '0' ≤ c ∧ c ≤ '7' then some (c.toNat - 48) else none

/-- The value of a hexadecimal digit. -/
def hex? (c : Char) : Option ℕ :=
  if '0' ≤ c ∧ c ≤ '9' then some (c.toNat - 48)
  else if 'a' ≤ c ∧ c ≤ 'f' then some (c.toNat - 87)
  else if 'A' ≤ c ∧ c ≤ 'F' then some (c.toNat - 55)
  else none

/-- Where the reader is: between characters, behind a backslash, behind `k` octal digits of the
value `v`, or behind `\x` and hexadecimal digits of the value `v`. -/
inductive Reading where
  | plain
  | escape
  | octal (k v : ℕ)
  | hex (v : Option ℕ)
  deriving DecidableEq, Repr

/-- The character with the code `v`, which has to fit into a byte. -/
def byteChar (v : ℕ) : Option Char := if v < 256 then some (Char.ofNat v) else none

/-- The character that ends here. -/
def Reading.pending : Reading → Option (List Char)
  | .plain => some []
  | .escape => none
  | .octal _ v => (byteChar v).map fun c => [c]
  | .hex none => none
  | .hex (some v) => (byteChar v).map fun c => [c]

/-- Between characters: what comes after `c` when `done` has been read. -/
def nextPlain (delim c : Char) (done : List Char) : Option (List Char × Reading) :=
  if c = '\\' then some (done, .escape)
  else if c = delim ∨ c = '\n' then none
  else some (done ++ [c], .plain)

/-- The characters read when `c` has been, and where the reader is then. -/
def Reading.next (delim c : Char) : Reading → Option (List Char × Reading)
  | .plain => nextPlain delim c []
  | .escape =>
    match simpleEscape c, octal? c with
    | some e, _ => some ([e], .plain)
    | none, some d => some ([], .octal 1 d)
    | none, none => if c = 'x' then some ([], .hex none) else none
  | .octal k v =>
    match octal? c with
    | some d =>
      if k < 3 then some ([], .octal (k + 1) (8 * v + d))
      else (byteChar v).bind fun e => nextPlain delim c [e]
    | none => (byteChar v).bind fun e => nextPlain delim c [e]
  | .hex v =>
    match hex? c with
    | some d => some ([], .hex (some (16 * v.getD 0 + d)))
    | none => v.bind fun v => (byteChar v).bind fun e => nextPlain delim c [e]

/-- The characters up to the delimiter, which has to be the last one. -/
def readLiteral (delim : Char) : Reading → List Char → Option (List Char)
  | _, [] => none
  | r, [c] => if c = delim then r.pending else none
  | r, c :: d :: rest =>
    (r.next delim c).bind fun p => (readLiteral delim p.2 (d :: rest)).map (p.1 ++ ·)

/-- A string literal, read. -/
def cString : List Char → Option (List Char)
  | '"' :: rest => readLiteral '"' .plain rest
  | _ => none

/-- A character constant, read. -/
def cChar : List Char → Option Char
  | '\'' :: rest =>
    (readLiteral '\'' .plain rest).bind fun s => if s.length = 1 then s.head? else none
  | _ => none

variable {c d delim : Char} {s t l rest : List Char} {r : Reading} {k n v : ℕ}

/-! ## What the languages share

A character that both write in the same way comes back. -/

/-- A character that `show` writes as C would. -/
def Shared (c : Char) : Prop := (letterEscape c).isSome ∨ ' ' ≤ c ∧ c < '\x7f'

instance (c : Char) : Decidable (Shared c) := inferInstanceAs (Decidable (_ ∨ _))

theorem readLiteral_cons (hrest : rest ≠ []) : readLiteral delim r (c :: rest) =
    (r.next delim c).bind fun p => (readLiteral delim p.2 rest).map (p.1 ++ ·) := by
  obtain ⟨d, rest, rfl⟩ := List.exists_cons_of_ne_nil hrest
  rw [readLiteral]

theorem readLiteral_escape {e : Char} (he : simpleEscape e = some c) (hrest : rest ≠ []) :
    readLiteral delim .plain ('\\' :: e :: rest) =
      (readLiteral delim .plain rest).map (c :: ·) := by
  rw [readLiteral_cons (List.cons_ne_nil _ _)]
  change (readLiteral delim .escape (e :: rest)).map ([] ++ ·) = _
  rw [readLiteral_cons hrest, Reading.next, he]
  change ((readLiteral delim .plain rest).map ([c] ++ ·)).map ([] ++ ·) = _
  rw [Option.map_map]
  rfl

theorem readLiteral_plain (hslash : c ≠ '\\') (hdelim : c ≠ delim) (hline : c ≠ '\n')
    (hrest : rest ≠ []) :
    readLiteral delim .plain (c :: rest) = (readLiteral delim .plain rest).map (c :: ·) := by
  rw [readLiteral_cons hrest, Reading.next, nextPlain, if_neg hslash,
    if_neg (not_or.mpr ⟨hdelim, hline⟩)]
  rfl

theorem simpleEscape_of_letterEscape {e : Char} (h : letterEscape c = some e) :
    simpleEscape e = some c := by
  unfold letterEscape at h
  split_ifs at h with h₁ h₂ h₃ h₄ h₅ h₆ h₇ <;> subst_vars <;> cases h <;> decide

/-- A control character or one beyond ASCII. -/
theorem not_shared (hslash : ¬Shared c) : '\x7f' < c ∨ c = '\x7f' ∨ ¬ ' ' ≤ c := by
  by_contra h
  rw [not_or, not_or, not_not] at h
  refine hslash (.inr ⟨h.2.2, ?_⟩)
  exact lt_of_le_of_ne (le_of_not_gt h.1) h.2.1

theorem readLiteral_shared (h : Shared c) (hrest : rest ≠ []) :
    readLiteral '"' .plain (if c = '"' then '\\' :: '"' :: rest else showLitChar c rest) =
      (readLiteral '"' .plain rest).map (c :: ·) := by
  split_ifs with hquote
  · rw [hquote]
    exact readLiteral_escape (by decide) hrest
  · unfold showLitChar
    have hhigh : ¬ '\x7f' < c := by
      rcases h with h | h
      · intro hlt
        cases he : letterEscape c with
        | none => simp [he] at h
        | some e =>
          unfold letterEscape at he
          split_ifs at he <;> subst_vars <;> revert hlt <;> decide
      · exact lt_asymm h.2
    rw [if_neg hhigh]
    by_cases hspace : ' ' ≤ c
    · have hdel : c ≠ '\x7f' := by
        rintro rfl
        exact absurd h (by decide)
      rw [if_neg hdel]
      split_ifs with hslash
      · rw [hslash]
        exact readLiteral_escape (by decide) hrest
      · refine readLiteral_plain hslash hquote ?_ hrest
        rintro rfl
        exact absurd hspace (by decide)
    · obtain ⟨e, he⟩ := Option.isSome_iff_exists.mp (h.resolve_right fun h => hspace h.1)
      have hdel : c ≠ '\x7f' := by
        rintro rfl
        exact hspace (by decide)
      have hslash : c ≠ '\\' := by
        rintro rfl
        exact hspace (by decide)
      rw [if_neg hdel, if_neg hslash, if_neg hspace, he]
      exact readLiteral_escape (simpleEscape_of_letterEscape he) hrest

/-! ## What they do not

Decimal escapes are read as octal ones, and some letters mean nothing in C. -/

theorem byteChar_toNat {e : Char} (h : byteChar v = some e) : e.toNat = v := by
  unfold byteChar at h
  split_ifs at h with hv
  cases h
  rw [Char.ofNat, dif_pos (Or.inl (by omega))]
  rfl

theorem nextPlain_done {done s : List Char} (h : nextPlain delim c done = some (s, r)) :
    done <+: s := by
  unfold nextPlain at h
  split_ifs at h <;> cases h
  · exact List.prefix_rfl
  · exact List.prefix_append ..

theorem octal?_lt (h : octal? c = some v) : v < 8 := by
  unfold octal? at h
  split_ifs at h with hc
  cases h
  have h7 : c.toNat ≤ '7'.toNat := hc.2
  have : '7'.toNat = 55 := rfl
  omega

/-- Behind `k` octal digits of the value `v`, the next character cannot exceed what further digits
make of it. -/
theorem readLiteral_octal (h : readLiteral delim (.octal k v) l = some s) :
    ∃ e t, s = e :: t ∧ e.toNat < (v + 1) * 8 ^ (3 - k) := by
  induction l generalizing k v s with
  | nil => cases h
  | cons c l ih =>
    have hends : v < (v + 1) * 8 ^ (3 - k) :=
      Nat.lt_of_lt_of_le (Nat.lt_succ_self v) (Nat.le_mul_of_pos_right _ (Nat.pow_pos (by omega)))
    cases l with
    | nil =>
      rw [readLiteral] at h
      split_ifs at h
      obtain ⟨e, he, rfl⟩ := Option.map_eq_some_iff.mp h
      exact ⟨e, [], rfl, byteChar_toNat he ▸ hends⟩
    | cons d l =>
      rw [readLiteral] at h
      obtain ⟨⟨done, r⟩, hnext, hl⟩ := Option.bind_eq_some_iff.mp h
      obtain ⟨t, ht, rfl⟩ := Option.map_eq_some_iff.mp hl
      -- the escape ends before `c`
      have hend : (byteChar v).bind (fun e => nextPlain delim c [e]) = some (done, r) →
          ∃ e u, done ++ t = e :: u ∧ e.toNat < (v + 1) * 8 ^ (3 - k) := by
        intro hbyte
        obtain ⟨e, he, hplain⟩ := Option.bind_eq_some_iff.mp hbyte
        obtain ⟨u, rfl⟩ := nextPlain_done hplain
        exact ⟨e, u ++ t, rfl, byteChar_toNat he ▸ hends⟩
      rw [Reading.next] at hnext
      cases ho : octal? c with
      | none =>
        rw [ho] at hnext
        exact hend hnext
      | some d =>
        rw [ho] at hnext
        dsimp only at hnext
        split_ifs at hnext with hk
        · cases hnext
          obtain ⟨e, u, rfl, he⟩ := ih ht
          refine ⟨e, u, rfl, Nat.lt_of_lt_of_le he ?_⟩
          have hd := octal?_lt ho
          rw [show 3 - k = (3 - (k + 1)) + 1 by omega, Nat.pow_succ', ← Nat.mul_assoc]
          exact Nat.mul_le_mul_right _ (by omega)
        · exact hend hnext

/-- The first digit of a decimal numeral. -/
theorem toDigits_head (n : ℕ) : ∃ a t, Nat.toDigits 10 n = Nat.digitChar a :: t ∧ a < 10 ∧ a ≤ n ∧
    (10 ≤ n → 10 * a ≤ n) ∧ (100 ≤ n → 100 * a ≤ n) := by
  induction n using Nat.strongRecOn with
  | ind n ih =>
    by_cases hn : n < 10
    · exact ⟨n, [], Nat.toDigits_of_lt_base hn, hn, Nat.le_refl n, by omega, by omega⟩
    · obtain ⟨a, t, ht, ha, hle, hle10, -⟩ := ih (n / 10) (by omega)
      refine ⟨a, t ++ [Nat.digitChar (n % 10)], ?_, ha, by omega, by omega, by omega⟩
      rw [Nat.toDigits_of_base_le (by omega) (by omega), ht, List.cons_append]

/-- A character beyond ASCII is not read back. -/
theorem readLiteral_high (hc : '\x7f' < c) :
    readLiteral '"' .plain ('\\' :: Nat.toDigits 10 c.toNat ++ rest) ≠ some (c :: s) := by
  intro h
  obtain ⟨a, t, hdigits, ha, -, -, h100⟩ := toDigits_head c.toNat
  have hhigh : 127 < c.toNat := hc
  rw [hdigits, List.cons_append, List.cons_append, readLiteral_cons (List.cons_ne_nil _ _)] at h
  change (readLiteral '"' .escape (Nat.digitChar a :: (t ++ rest))).map ([] ++ ·) = _ at h
  obtain ⟨l, hl, heq⟩ := Option.map_eq_some_iff.mp h
  cases hrest : t ++ rest with
  | nil =>
    rw [hrest, readLiteral] at hl
    split_ifs at hl
    cases hl
  | cons d u =>
    rw [hrest, readLiteral_cons (List.cons_ne_nil _ _)] at hl
    obtain ⟨⟨done, r⟩, hnext, hdone⟩ := Option.bind_eq_some_iff.mp hl
    obtain ⟨l, hoctal, rfl⟩ := Option.map_eq_some_iff.mp hdone
    have hfirst : (done, r) = ([], .octal 1 a) := by
      have hall : ∀ a < 10, ∀ p ∈ Reading.next '"' (Nat.digitChar a) .escape,
          p = ([], .octal 1 a) := by decide
      exact hall a ha _ hnext
    cases hfirst
    obtain ⟨e, u, rfl, he⟩ := readLiteral_octal hoctal
    have hec : e = c := (List.cons.inj heq).1
    rw [hec] at he
    omega

/-- A control character that has no escape of one letter in C is not read at all. -/
theorem readLiteral_control (hc : ¬ ' ' ≤ c) (hescape : letterEscape c = none) :
    readLiteral '"' .plain (showLitChar c rest) = none := by
  have hlt : c.toNat < 32 := Nat.lt_of_not_le hc
  -- the name that follows the backslash starts with a capital letter
  have hname : ∃ d t, showLitChar c rest = '\\' :: d :: t ∧
      Reading.next '"' d .escape = none := by
    have hall : ∀ n < 32, letterEscape (Char.ofNat n) = none →
        ((asciiTab.getD n "").toList.head?.bind fun d => Reading.next '"' d .escape) = none := by
      decide
    have hsome : ∀ n < 32, (asciiTab.getD n "").toList ≠ [] := by decide
    have hself : Char.ofNat c.toNat = c := Char.ofNat_toNat c
    have hdel : c ≠ '\x7f' := by
      rintro rfl
      exact hc (by decide)
    have hslash : c ≠ '\\' := by
      rintro rfl
      exact hc (by decide)
    have hhigh : ¬ '\x7f' < c := fun h => hc (Nat.le_of_lt (Nat.lt_trans (by decide) h))
    rw [showLitChar, if_neg hhigh, if_neg hdel, if_neg hslash, if_neg hc, hescape]
    dsimp only
    split_ifs with hso
    · cases rest with
      | nil => exact ⟨_, _, rfl, by decide⟩
      | cons d rest =>
        rw [protectEsc]
        split_ifs <;> exact ⟨_, _, rfl, by decide⟩
    · obtain ⟨d, t, ht⟩ := List.exists_cons_of_ne_nil (hsome c.toNat hlt)
      have hd := hall c.toNat hlt (hself.symm ▸ hescape)
      rw [ht] at hd
      exact ⟨d, t ++ rest, by rw [ht]; rfl, hd⟩
  obtain ⟨d, t, hshow, hnext⟩ := hname
  rw [hshow, readLiteral_cons (List.cons_ne_nil _ _)]
  change (readLiteral '"' .escape (d :: t)).map ([] ++ ·) = none
  cases t with
  | nil =>
    rw [readLiteral]
    split_ifs <;> rfl
  | cons e t => rw [readLiteral_cons (List.cons_ne_nil _ _), hnext]; rfl

theorem readLiteral_not_shared (hc : ¬Shared c) :
    readLiteral '"' .plain (showLitChar c rest) ≠ some (c :: s) := by
  rcases not_shared hc with hhigh | rfl | hcontrol
  · rw [showLitChar, if_pos hhigh]
    cases rest with
    | nil =>
      rw [protectEsc, ← List.append_nil ('\\' :: _)]
      exact readLiteral_high hhigh
    | cons d rest =>
      rw [protectEsc]
      split_ifs
      · exact readLiteral_high hhigh
      · exact readLiteral_high hhigh
  · cases rest with
    | nil => exact nofun
    | cons d rest => exact nofun
  · have hescape : letterEscape c = none := by
      rw [← Option.not_isSome_iff_eq_none]
      exact fun h => hc (.inl h)
    rw [readLiteral_control hcontrol hescape]
    exact nofun

/-! ## Strings -/

theorem showLitChar_ne_nil : showLitChar c rest ≠ [] := by
  unfold showLitChar
  split_ifs
  all_goals first | exact List.cons_ne_nil _ _ | skip
  all_goals cases letterEscape c <;> exact List.cons_ne_nil _ _

theorem showLitString_ne_nil (hrest : rest ≠ []) : showLitString rest s ≠ [] := by
  cases s with
  | nil => exact hrest
  | cons c s =>
    rw [showLitString]
    split_ifs
    · exact List.cons_ne_nil _ _
    · exact showLitChar_ne_nil

/-- **The two languages** agree on a string exactly when they share all its characters. -/
theorem cString_showString (s : List Char) :
    cString (showString s) = some s ↔ ∀ c ∈ s, Shared c := by
  change readLiteral '"' .plain (showLitString ['"'] s) = some s ↔ _
  induction s with
  | nil => exact ⟨fun _ => nofun, fun _ => rfl⟩
  | cons c s ih =>
    rw [showLitString, List.forall_mem_cons, ← ih]
    by_cases hc : Shared c
    · rw [readLiteral_shared hc (showLitString_ne_nil (List.cons_ne_nil _ _))]
      simp [hc]
    · have hquote : c ≠ '"' := by
        rintro rfl
        exact hc (by decide)
      rw [if_neg hquote]
      exact iff_of_false (readLiteral_not_shared hc) fun h => hc h.1

/-- A printable character is read back. -/
theorem cChar_showChar (hlow : ' ' ≤ c) (hhigh : c ≤ '~') : cChar (showChar c) = some c := by
  have hall : ∀ n < 127, 32 ≤ n → cChar (showChar (Char.ofNat n)) = some (Char.ofNat n) := by
    decide +kernel
  have hlt : c.toNat < 127 := Nat.lt_succ_of_le (UInt32.le_iff_toNat_le.mp hhigh)
  have hc := hall c.toNat hlt (UInt32.le_iff_toNat_le.mp hlow)
  rwa [Char.ofNat_toNat] at hc

example : cString (showString "say \"hi\"\\\t\x01".toList) = none := by decide

end SchemeOs
