import Mathlib.Data.List.DropRight
import Mathlib.Data.Nat.Notation
import Mathlib.Logic.Function.Basic
import Mathlib.Tactic.SplitIfs

/-!
# Reader/Keyboard — the direct input port of `scheme/port.c`

`scheme_port_get_char` serves characters from `_line_buffer`.  When it comes to a zero byte it reads
a line of scancodes from the keyboard into the buffer, up to Enter.  The port is the buffer, the
offset, and the scancodes that the keyboard still has; a call that waits for the keyboard, or reads
behind the buffer, is `none`.

What is typed depends on the Shift keys that are held, of which there are two.  The port has one
flag for both, and starts every line without it: it knows the last Shift code of the line only.

The buffer is only marked as used up, by a zero in its first byte, after a newline that was not its
first byte.  So an empty line uncovers what the line before it left.
-/

namespace SchemeOs.Keyboard

/-- A byte of the keyboard controller. -/
abbrev Scancode := BitVec 8

/-! ## Key maps -/

/-- `key_map`. -/
def keyMap : List ℕ :=
  [0, 27] ++ ['1', '2', '3', '4', '5', '6', '7', '8', '9', '0', '-', '='].map Char.toNat ++
  [127, 9] ++ ['q', 'w', 'e', 'r', 't', 'y', 'u', 'i', 'o', 'p', '[', ']'].map Char.toNat ++
  [13, 0] ++ ['a', 's', 'd', 'f', 'g', 'h', 'j', 'k', 'l', ';', '\''].map Char.toNat ++
  ['`'.toNat, 0] ++ ['\\', 'z', 'x', 'c', 'v', 'b', 'n', 'm', ',', '.', '/'].map Char.toNat ++
  [0, '*'.toNat, 0, 32] ++ List.replicate 16 0 ++ ['-'.toNat, 0, 0, 0, '+'.toNat] ++
  List.replicate 7 0 ++ ['<'.toNat] ++ List.replicate 10 0

/-- `shift_map`. -/
def shiftMap : List ℕ :=
  [0, 27] ++ ['!', '@', '#', '$', '%', '^', '&', '*', '(', ')', '_', '+'].map Char.toNat ++
  [127, 9] ++ ['Q', 'W', 'E', 'R', 'T', 'Y', 'U', 'I', 'O', 'P', '{', '}'].map Char.toNat ++
  [13, 0] ++ ['A', 'S', 'D', 'F', 'G', 'H', 'J', 'K', 'L', ':', '"'].map Char.toNat ++
  ['~'.toNat, 0] ++ ['|', 'Z', 'X', 'C', 'V', 'B', 'N', 'M', '<', '>', '?'].map Char.toNat ++
  [0, '*'.toNat, 0, 32] ++ List.replicate 16 0 ++ ['-'.toNat, 0, 0, 0, '+'.toNat] ++
  List.replicate 7 0 ++ ['>'.toNat] ++ List.replicate 10 0

/-- `alt_map`, as far as a scancode can reach into it. -/
def altMap : List ℕ :=
  [0, 0] ++ [0, '@'.toNat, 0, '$'.toNat, 0, 0, '{'.toNat, '['.toNat, ']'.toNat, '}'.toNat,
    '\\'.toNat, 0] ++ [0, 0] ++ List.replicate 11 0 ++ ['~'.toNat, 13, 0] ++ List.replicate 29 0

/-- `keymap[v]`: the maps lie one behind the other, and `shift_map` comes second. -/
def keymapAt (shifted : Bool) (v : Scancode) : ℕ :=
  (keyMap ++ shiftMap ++ altMap).getD ((if shifted then keyMap.length else 0) + v.toNat) 0

/-- The character of a key, with `'\r'` converted to `'\n'`. -/
def charOf (shifted : Bool) (v : Scancode) : ℕ :=
  if keymapAt shifted v = '\r'.toNat then '\n'.toNat else keymapAt shifted v

/-! ## The port -/

/-- `_line_buffer`, `_offset`, and the scancodes to come. -/
structure Port where
  buffer : ℕ → ℕ
  offset : ℕ
  codes : List Scancode

/-- The loop that reads a line: each `continue` goes to the test `v != '\n'`, which an up code or a
shift key meets. -/
def readLine (shifted : Bool) (offset : ℕ) (buffer : ℕ → ℕ) :
    List Scancode → Option ((ℕ → ℕ) × List Scancode)
  | [] => none
  | v :: codes =>
    if v &&& 0x80#8 ≠ 0#8 then
      readLine (if v = 0xaa#8 ∨ v = 0xb6#8 then false else shifted) offset buffer codes
    else if v = 0x2a#8 ∨ v = 0x36#8 then readLine true offset buffer codes
    else
      let c := charOf shifted v
      if 1024 ≤ offset then   -- the character is dropped
        if c ≠ '\n'.toNat then readLine shifted offset buffer codes else some (buffer, codes)
      else if c ≠ '\n'.toNat then
        readLine shifted (offset + 1) (Function.update buffer offset c) codes
      else some (Function.update buffer offset c, codes)

/-- `scheme_port_get_char` on the direct input port. -/
def getChar (p : Port) : Option (ℕ × Port) :=
  if 1024 ≤ p.offset then none
  else
    let c := p.buffer p.offset
    if c = '\n'.toNat then
      some (c, { p with offset := 0, buffer := Function.update p.buffer 0 0 })
    else if c = 0 then
      (readLine false 0 p.buffer p.codes).map fun r => (r.1 0, ⟨r.1, 1, r.2⟩)
    else some (c, { p with offset := p.offset + 1 })

/-- The port that `scheme_init_port` makes; the buffer is static. -/
def Port.init (codes : List Scancode) : Port := ⟨fun _ => 0, 0, codes⟩

/-- `n` calls of `scheme_port_get_char`, and the characters they deliver. -/
def getChars : ℕ → Port → Option (List ℕ × Port)
  | 0, p => some ([], p)
  | n + 1, p => (getChar p).bind fun r => (getChars n r.2).map fun t => (r.1 :: t.1, t.2)

/-! ## What is typed

Said without the port's flags: which characters a sequence of scancodes types, line by line. -/

/-- The scancode is neither an up code nor a shift key. -/
def isKey (v : Scancode) : Bool := v &&& 0x80#8 = 0#8 ∧ v ≠ 0x2a#8 ∧ v ≠ 0x36#8

/-- The Shift keys that are held. -/
structure Shift where
  left : Bool
  right : Bool
  deriving DecidableEq, Repr

/-- Neither Shift key is held. -/
def Shift.none : Shift := ⟨false, false⟩

/-- Shift is held. -/
def Shift.held (s : Shift) : Bool := s.left || s.right

/-- The Shift keys that are held after the scancode `v`. -/
def Shift.after (s : Shift) (v : Scancode) : Shift :=
  if v = 0x2a#8 then { s with left := true }
  else if v = 0xaa#8 then { s with left := false }
  else if v = 0x36#8 then { s with right := true }
  else if v = 0xb6#8 then { s with right := false }
  else s

/-- The characters typed; keys with no character give none, and Enter a newline. -/
def typed (s : Shift) : List Scancode → List ℕ
  | [] => []
  | v :: codes =>
    if isKey v ∧ charOf s.held v ≠ 0 then charOf s.held v :: typed (s.after v) codes
    else typed (s.after v) codes

/-- Calls deliver `out`, one character each and in order, and the next call waits; the offset stays
inside the buffer. -/
def Serves (p : Port) (out : List ℕ) : Prop :=
  ∀ n, (n ≤ out.length →
      ∃ p', getChars n p = some (out.take n, p') ∧ p'.offset < 1024) ∧
    (out.length < n → getChars n p = none)

/-- **The port is right** about the scancodes: it delivers what is typed up to the last Enter. -/
def DeliversTyped (codes : List Scancode) : Prop :=
  Serves (Port.init codes) ((typed .none codes).rdropWhile fun c => c ≠ '\n'.toNat)

/-- The first line of the scancodes: what the keys before Enter give, the Shift keys held at Enter,
and the scancodes behind it. -/
def line (s : Shift) : List Scancode → Option (List ℕ × Shift × List Scancode)
  | [] => none
  | v :: codes =>
    if isKey v then
      if charOf s.held v = '\n'.toNat then some ([], s, codes)
      else (line s codes).map fun r => (charOf s.held v :: r.1, r.2)
    else line (s.after v) codes

/-- Whether the last Shift code is a make code, after the scancode `v`. -/
def madeAfter (made : Bool) (v : Scancode) : Bool :=
  if v = 0xaa#8 ∨ v = 0xb6#8 then false else if v = 0x2a#8 ∨ v = 0x36#8 then true else made

/-- Each key of the line gives the same character by the last Shift code of the line, none being as
a break code, as by the Shift keys that are held. -/
def byLast (made : Bool) (s : Shift) : List Scancode → Bool
  | [] => true
  | v :: codes =>
    if isKey v then
      charOf made v = charOf s.held v &&
        (charOf s.held v = '\n'.toNat || byLast made s codes)
    else byLast (madeAfter made v) (s.after v) codes

/-- The lines that the port gets right: the last Shift code tells which characters are meant, the
line fits into the buffer, no key in it is without a character, and it is not empty unless every
line before it is. -/
inductive Tame : Bool → Shift → List Scancode → Prop where
  | rest {first : Bool} {s : Shift} {codes : List Scancode} : line s codes = none →
      Tame first s codes
  | enter {first : Bool} {s s' : Shift} {codes rest : List Scancode} {l : List ℕ} :
      line s codes = some (l, s', rest) → byLast false s codes = true → l.length < 1024 →
      0 ∉ l → (l ≠ [] ∨ first) → Tame (first && l.isEmpty) s' rest → Tame first s codes

variable {p p' : Port} {out l : List ℕ} {codes rest : List Scancode} {made : Bool}
  {s s' : Shift} {c offset : ℕ} {buffer : ℕ → ℕ}

/-! ## Reading a line

The buffer of the port after some scancodes of a line. -/

/-- The buffer with the characters `l` written from `offset` on. -/
def writeFrom (buffer : ℕ → ℕ) : ℕ → List ℕ → ℕ → ℕ
  | _, [] => buffer
  | offset, c :: l => writeFrom (Function.update buffer offset c) (offset + 1) l

theorem writeFrom_of_lt {i : ℕ} (hi : i < offset) : writeFrom buffer offset l i = buffer i := by
  induction l generalizing offset buffer with
  | nil => rfl
  | cons c l ih => rw [writeFrom, ih (by omega), Function.update_of_ne (by omega)]

theorem writeFrom_of_ge {i : ℕ} (hi : offset + l.length ≤ i) :
    writeFrom buffer offset l i = buffer i := by
  induction l generalizing offset buffer with
  | nil => rfl
  | cons c l ih =>
    rw [List.length_cons] at hi
    rw [writeFrom, ih (by omega), Function.update_of_ne (by omega)]

theorem writeFrom_add {i : ℕ} (hi : i < l.length) :
    writeFrom buffer offset l (offset + i) = l[i] := by
  induction l generalizing offset buffer i with
  | nil => exact absurd hi (Nat.not_lt_zero i)
  | cons c l ih =>
    rw [writeFrom]
    cases i with
    | zero => exact (writeFrom_of_lt (Nat.lt_add_one offset)).trans (Function.update_self ..)
    | succ i =>
      have hidx : offset + (i + 1) = offset + 1 + i := by omega
      rw [hidx, ih (by simpa using hi), List.getElem_cons_succ]

theorem Shift.after_of_isKey {v : Scancode} (hv : isKey v = true) : s.after v = s := by
  obtain ⟨hdown, h₁, h₂⟩ := of_decide_eq_true hv
  have h₃ : v ≠ 0xaa#8 := by
    rintro rfl
    exact absurd hdown (by decide)
  have h₄ : v ≠ 0xb6#8 := by
    rintro rfl
    exact absurd hdown (by decide)
  rw [Shift.after, if_neg h₁, if_neg h₃, if_neg h₂, if_neg h₄]

/-- Enter is Enter with and without Shift. -/
theorem charOf_newline (shifted shifted' : Bool) {v : Scancode} (hv : isKey v = true) :
    charOf shifted v = '\n'.toNat ↔ charOf shifted' v = '\n'.toNat := by
  revert shifted shifted' v
  decide +kernel

/-- A scancode that is no key only moves the shift state. -/
theorem readLine_of_not_isKey {v : Scancode} (hv : ¬ isKey v = true) :
    readLine made offset buffer (v :: codes) =
      readLine (madeAfter made v) offset buffer codes := by
  rw [readLine, madeAfter]
  by_cases hup : v &&& 0x80#8 = 0#8
  · have hshift : v = 0x2a#8 ∨ v = 0x36#8 := by
      by_contra hnone
      exact hv (decide_eq_true ⟨hup, fun h => hnone (Or.inl h), fun h => hnone (Or.inr h)⟩)
    have hrelease : ¬ (v = 0xaa#8 ∨ v = 0xb6#8) := by
      rintro (rfl | rfl) <;> exact absurd hup (by decide)
    rw [if_neg (not_not.mpr hup), if_pos hshift, if_neg hrelease, if_pos hshift]
  · have hshift : ¬ (v = 0x2a#8 ∨ v = 0x36#8) := by
      rintro (rfl | rfl) <;> exact hup (by decide)
    rw [if_pos hup, if_neg hshift]

/-- A key is written into the buffer while there is room; Enter ends the loop. -/
theorem readLine_of_isKey {v : Scancode} (hv : isKey v = true) (hroom : offset < 1024) :
    readLine made offset buffer (v :: codes) =
      if charOf made v ≠ '\n'.toNat then
        readLine made (offset + 1) (Function.update buffer offset (charOf made v)) codes
      else some (Function.update buffer offset (charOf made v), codes) := by
  obtain ⟨hdown, h₁, h₂⟩ := of_decide_eq_true hv
  rw [readLine, if_neg (not_not.mpr hdown), if_neg (by simp [h₁, h₂])]
  exact if_neg (Nat.not_le.mpr hroom)

/-- **A line that fits** is read into the buffer, newline included. -/
theorem readLine_eq (buffer : ℕ → ℕ) (hl : line s codes = some (l, s', rest))
    (hlast : byLast made s codes = true) (hfit : offset + l.length < 1024) :
    readLine made offset buffer codes =
      some (writeFrom buffer offset (l ++ ['\n'.toNat]), rest) := by
  induction codes generalizing made s offset buffer l with
  | nil => simp [line] at hl
  | cons v codes ih =>
    rw [line] at hl
    rw [byLast] at hlast
    by_cases hv : isKey v = true
    · rw [if_pos hv] at hl
      rw [if_pos hv, Bool.and_eq_true, decide_eq_true_eq, Bool.or_eq_true, decide_eq_true_eq]
        at hlast
      obtain ⟨hchar, hlast⟩ := hlast
      rw [readLine_of_isKey hv (by omega), hchar]
      by_cases henter : charOf s.held v = '\n'.toNat
      · rw [if_pos henter, Option.some.injEq, Prod.mk.injEq, Prod.mk.injEq] at hl
        obtain ⟨rfl, -, rfl⟩ := hl
        rw [if_neg (not_not.mpr henter), henter]
        rfl
      · rw [if_neg henter] at hl
        obtain ⟨⟨l', t, rest'⟩, hl', heq⟩ := Option.map_eq_some_iff.mp hl
        obtain ⟨rfl, rfl, rfl⟩ : charOf s.held v :: l' = l ∧ t = s' ∧ rest' = rest := by
          simpa using heq
        rw [List.length_cons] at hfit
        rw [if_pos henter, ih _ hl' (hlast.resolve_left henter) (by omega)]
        rfl
    · rw [if_neg hv] at hl hlast
      rw [readLine_of_not_isKey hv, ih _ hl hlast hfit]

/-- Without Enter the loop waits. -/
theorem readLine_eq_none (hl : line s codes = none) :
    readLine made offset buffer codes = none := by
  induction codes generalizing made s offset buffer with
  | nil => rfl
  | cons v codes ih =>
    rw [line] at hl
    by_cases hv : isKey v = true
    · rw [if_pos hv] at hl
      by_cases henter : charOf s.held v = '\n'.toNat
      · rw [if_pos henter] at hl
        exact absurd hl (Option.some_ne_none _)
      · rw [if_neg henter, Option.map_eq_none_iff] at hl
        obtain ⟨hdown, h₁, h₂⟩ := of_decide_eq_true hv
        have hmade : ¬charOf made v = '\n'.toNat := fun h =>
          henter ((charOf_newline _ _ hv).mp h)
        rw [readLine, if_neg (not_not.mpr hdown), if_neg (by simp [h₁, h₂])]
        simp only [ne_eq, hmade, not_false_eq_true, if_true, ih hl, ite_self]
    · rw [if_neg hv] at hl
      rw [readLine_of_not_isKey hv, ih hl]

/-- A line holds no newline. -/
theorem line_ne_newline (hl : line s codes = some (l, s', rest)) : '\n'.toNat ∉ l := by
  induction codes generalizing s l with
  | nil => simp [line] at hl
  | cons v codes ih =>
    rw [line] at hl
    split_ifs at hl with hv henter
    · rw [Option.some.injEq, Prod.mk.injEq] at hl
      rw [← hl.1]
      exact List.not_mem_nil
    · obtain ⟨⟨l', r⟩, hl', heq⟩ := Option.map_eq_some_iff.mp hl
      obtain ⟨rfl, rfl⟩ : charOf s.held v :: l' = l ∧ r = (s', rest) := by simpa using heq
      exact List.not_mem_cons_of_ne_of_not_mem (Ne.symm henter) (ih hl')
    · exact ih hl

/-! ## What is typed, line by line -/

theorem typed_eq (hl : line s codes = some (l, s', rest)) (h0 : 0 ∉ l) :
    typed s codes = l ++ '\n'.toNat :: typed s' rest := by
  induction codes generalizing s l with
  | nil => simp [line] at hl
  | cons v codes ih =>
    rw [line] at hl
    rw [typed]
    split_ifs at hl with hv henter
    · obtain ⟨rfl, rfl, rfl⟩ : [] = l ∧ s = s' ∧ codes = rest := by simpa using hl
      rw [if_pos ⟨hv, by rw [henter]; decide⟩, Shift.after_of_isKey hv, henter]
      rfl
    · obtain ⟨⟨l', r⟩, hl', heq⟩ := Option.map_eq_some_iff.mp hl
      obtain ⟨rfl, rfl⟩ : charOf s.held v :: l' = l ∧ r = (s', rest) := by simpa using heq
      obtain ⟨hne, h0'⟩ := List.ne_and_not_mem_of_not_mem_cons h0
      rw [if_pos ⟨hv, Ne.symm hne⟩, Shift.after_of_isKey hv, ih hl' h0']
      rfl
    · rw [if_neg fun h => hv h.1, ih hl h0]

theorem newline_notMem_typed (hl : line s codes = none) : '\n'.toNat ∉ typed s codes := by
  induction codes generalizing s with
  | nil => exact List.not_mem_nil
  | cons v codes ih =>
    rw [line] at hl
    rw [typed]
    split_ifs at hl with hv henter
    · rw [Option.map_eq_none_iff] at hl
      rw [Shift.after_of_isKey hv]
      split_ifs
      · exact List.not_mem_cons_of_ne_of_not_mem (Ne.symm henter) (ih hl)
      · exact ih hl
    · rw [if_neg fun h => hv h.1]
      exact ih hl

/-- What is typed up to the last Enter: the first line, and what is typed behind it. -/
theorem rdropWhile_typed (hl : line s codes = some (l, s', rest)) (h0 : 0 ∉ l) :
    (typed s codes).rdropWhile (fun c => c ≠ '\n'.toNat) =
      l ++ '\n'.toNat :: (typed s' rest).rdropWhile fun c => c ≠ '\n'.toNat := by
  rw [typed_eq hl h0]
  generalize typed s' rest = tail
  rw [← List.singleton_append, ← List.append_assoc]
  induction tail using List.reverseRecOn with
  | nil =>
    rw [List.append_nil, List.rdropWhile_nil, List.rdropWhile_concat_neg _ _ _ (by simp)]
  | append_singleton tail c ih =>
    rw [← List.append_assoc, List.rdropWhile_concat, List.rdropWhile_concat, ih]
    split_ifs
    · rfl
    · simp

theorem rdropWhile_typed_of_none (hl : line s codes = none) :
    (typed s codes).rdropWhile (fun c => c ≠ '\n'.toNat) = [] := by
  refine List.rdropWhile_eq_nil_iff.mpr fun c hc => ?_
  simp only [ne_eq, decide_eq_true_eq]
  rintro rfl
  exact newline_notMem_typed hl hc

/-! ## Calls -/

theorem serves_nil (hoff : p.offset < 1024) (hget : getChar p = none) : Serves p [] := fun n => by
  cases n with
  | zero => exact ⟨fun _ => ⟨p, rfl, hoff⟩, fun h => absurd h (Nat.lt_irrefl 0)⟩
  | succ n => exact ⟨fun h => absurd h (by simp), fun _ => by rw [getChars, hget]; rfl⟩

theorem serves_cons (hoff : p.offset < 1024) (hget : getChar p = some (c, p'))
    (hout : Serves p' out) : Serves p (c :: out) := fun n => by
  cases n with
  | zero => exact ⟨fun _ => ⟨p, rfl, hoff⟩, fun h => absurd h (by simp)⟩
  | succ n =>
    rw [List.length_cons, Nat.add_le_add_iff_right, Nat.add_lt_add_iff_right, getChars, hget,
      List.take_succ_cons]
    refine ⟨fun hle => ?_, fun hlt => ?_⟩
    · obtain ⟨p'', hchars, hoff'⟩ := (hout n).1 hle
      exact ⟨p'', by simp [hchars], hoff'⟩
    · simp [(hout n).2 hlt]

/-- **The rest of a line** is served character by character, and the newline marks the buffer as
used up. -/
theorem serves_line (h0 : 0 ∉ l) (hnl : '\n'.toNat ∉ l) (hroom : offset + l.length < 1024)
    (hbuf : ∀ i (hi : i < l.length), buffer (offset + i) = l[i])
    (hend : buffer (offset + l.length) = '\n'.toNat)
    (hout : Serves ⟨Function.update buffer 0 0, 0, codes⟩ out) :
    Serves ⟨buffer, offset, codes⟩ (l ++ '\n'.toNat :: out) := by
  induction l generalizing offset with
  | nil =>
    have hoff : offset < 1024 := by simpa using hroom
    refine serves_cons hoff ?_ hout
    rw [List.length_nil, Nat.add_zero] at hend
    simp [getChar, Nat.not_le.mpr hoff, hend]
  | cons c l ih =>
    rw [List.length_cons] at hroom hend
    obtain ⟨hc0, h0'⟩ := List.ne_and_not_mem_of_not_mem_cons h0
    obtain ⟨hcnl, hnl'⟩ := List.ne_and_not_mem_of_not_mem_cons hnl
    have hnext := hbuf 0 (by simp)
    rw [Nat.add_zero, List.getElem_cons_zero] at hnext
    have hfit : ¬ 1024 ≤ offset := by omega
    have hget : getChar ⟨buffer, offset, codes⟩ = some (c, ⟨buffer, offset + 1, codes⟩) := by
      simp only [getChar, hfit, if_false, hnext, if_neg (Ne.symm hcnl), if_neg (Ne.symm hc0)]
    refine serves_cons (Nat.not_le.mp hfit) hget (ih h0' hnl' (by omega) (fun i hi => ?_)
      (by rwa [Nat.add_right_comm, Nat.add_assoc]))
    have hidx : offset + 1 + i = offset + (i + 1) := by omega
    have := hbuf (i + 1) (by simpa using hi)
    rwa [List.getElem_cons_succ, ← hidx] at this

/-- At a zero byte the port waits for a line. -/
theorem getChar_eq_none (hoff : p.offset < 1024) (hzero : p.buffer p.offset = 0)
    (hl : line s p.codes = none) : getChar p = none := by
  simp [getChar, Nat.not_le.mpr hoff, hzero, readLine_eq_none hl]

/-- At a zero byte the port reads a line, and delivers its first character. -/
theorem getChar_eq_line (hoff : p.offset < 1024) (hzero : p.buffer p.offset = 0)
    (hl : line s p.codes = some (l, s', rest)) (hlast : byLast false s p.codes = true)
    (hfit : l.length < 1024) :
    getChar p = some ((l ++ ['\n'.toNat]).head (by simp),
      ⟨writeFrom p.buffer 0 (l ++ ['\n'.toNat]), 1, rest⟩) := by
  have hhead : writeFrom p.buffer 0 (l ++ ['\n'.toNat]) (0 + 0) = _ :=
    writeFrom_add (i := 0) (by simp)
  have hread := readLine_eq p.buffer hl hlast (show 0 + l.length < 1024 by omega)
  simpa [getChar, Nat.not_le.mpr hoff, hzero, hread, List.head_eq_getElem] using hhead

/-- **Tame lines are served**, from a port that is at a zero byte.  As long as all lines were empty
the byte behind the newline is zero too. -/
theorem serves_of_tame {first : Bool} (ht : Tame first s codes) (hoff : offset < 1024)
    (hzero : buffer offset = 0) (hfirst : first = true → buffer 1 = 0) :
    Serves ⟨buffer, offset, codes⟩ ((typed s codes).rdropWhile fun c => c ≠ '\n'.toNat) := by
  induction ht generalizing buffer offset with
  | rest hl =>
    rw [rdropWhile_typed_of_none hl]
    exact serves_nil hoff (getChar_eq_none (p := ⟨_, _, _⟩) hoff hzero hl)
  | @enter first s s' codes rest l hl hlast hlen h0 hempty _ ih =>
    rw [rdropWhile_typed hl h0]
    have hget := getChar_eq_line (p := ⟨buffer, offset, codes⟩) hoff hzero hl hlast hlen
    cases l with
    | nil =>
      -- the offset stays behind the newline, on a byte that no line has written yet
      refine serves_cons hoff hget (ih (by decide) ?_ fun _ => ?_)
      all_goals
        rw [writeFrom_of_ge (by simp)]
        exact hfirst (hempty.resolve_left fun h => h rfl)
    | cons c l =>
      have hnl := line_ne_newline hl
      obtain ⟨-, h0'⟩ := List.ne_and_not_mem_of_not_mem_cons h0
      obtain ⟨-, hnl'⟩ := List.ne_and_not_mem_of_not_mem_cons hnl
      rw [List.length_cons] at hlen
      refine serves_cons hoff hget (serves_line h0' hnl' (by omega) (fun i hi => ?_) ?_
        (ih (by decide) (by simp) (by simp)))
      · have : writeFrom buffer 0 (c :: l ++ ['\n'.toNat]) (0 + (i + 1)) = _ :=
          writeFrom_add (by simp; omega)
        rw [Nat.add_comm 1 i]
        simpa [hi] using this
      · have : writeFrom buffer 0 (c :: l ++ ['\n'.toNat]) (0 + (l.length + 1)) = _ :=
          writeFrom_add (by simp)
        rw [Nat.add_comm 1 l.length]
        simpa using this

/-- **Tame lines are delivered as typed**, for any number of calls. -/
theorem deliversTyped_of_tame (ht : Tame true .none codes) : DeliversTyped codes :=
  serves_of_tame ht (by decide) rfl fun _ => rfl

/-- Shift is still held at the first Enter, and released before the next key. -/
theorem deliversTyped_of_tame_word :
    DeliversTyped [0x2a#8, 0x1e#8, 0x1c#8, 0xaa#8, 0x1e#8, 0x9e#8, 0x30#8, 0x1c#8] := by
  refine deliversTyped_of_tame
    (.enter (show _ = some (['A'.toNat], ⟨true, false⟩, _) from rfl) rfl ?_ ?_ ?_
      (.enter (show _ = some (['a'.toNat, 'b'.toNat], .none, []) from rfl) rfl ?_ ?_ ?_
        (.rest rfl)))
  all_goals decide

/-- **The slip of the empty line**: behind its newline the port goes on with the second character of
the line before. -/
theorem not_deliversTyped_emptyLine : ¬ DeliversTyped [0x1e#8, 0x30#8, 0x1c#8, 0x1c#8] := by
  intro h
  have hnone := (h 5).2 (by decide)
  have hsome : (getChars 5 (Port.init [0x1e#8, 0x30#8, 0x1c#8, 0x1c#8])).isSome = true := by
    decide +kernel
  rw [hnone] at hsome
  exact Bool.noConfusion hsome

end SchemeOs.Keyboard
