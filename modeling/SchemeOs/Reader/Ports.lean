import Mathlib.Data.List.Infix
import Mathlib.Data.Nat.Notation
import Mathlib.Tactic.SplitIfs
import SchemeOs.Machinery.Ints
import SchemeOs.Machinery.Runs

/-!
# Reader/Ports — character streams

A port over a string in memory keeps its offset and its type in one tag: the offset is above the
two type bits.  `scheme_port_get_char` reads it there.  `scheme_port_peek_char` and
`scheme_port_get_string` shift by one bit only, and look at twice the offset; the latter advances by
half of what it read.  No operation stays at the end of the string.
-/

namespace SchemeOs.Port

/-! ## The operations -/

/-- `(char) EOF` -/
def eof : UInt8 := 255

/-- `scheme_port_char_stream_type` -/
def charStreamType : ℤ := 0

/-- `SCHEME_PORT_TYPE`: the tag `& 0x3` -/
def portType (tag : ℤ) : ℤ := tag % 4

/-- What a byte is read as. -/
def charOf (c : UInt8) : UInt8 := if c = 0 then eof else c

/-- The calls on a port. -/
inductive Call where
  | peekChar
  | getChar
  | getString (size : ℕ)
  deriving DecidableEq, Repr

/-- What they return, and for `scheme_port_get_string` the bytes written to its buffer. -/
inductive Reply where
  | char (c : UInt8)
  | string (cnt : ℤ) (buf : List UInt8)
  deriving DecidableEq, Repr

/-- The loop of `scheme_port_get_string`: the bytes written, the count, and where it stops. -/
def copyString (mem : ℤ → UInt8) : ℕ → ℤ → List UInt8 × ℕ × ℤ
  | 0, s => ([], 0, s)
  | size + 1, s =>
    if mem s = 0 then ([0], 0, s + 1)
    else
      let r := copyString mem size (s + 1)
      (mem s :: r.1, r.2.1 + 1, r.2.2)

/-- A call on a port of a character stream: the reply and the new tag.  The memory is addressed from
the start of the stream. -/
def call (mem : ℤ → UInt8) (tag : ℤ) : Call → Reply × ℤ
  | .peekChar => (.char (charOf (mem (tag / 2))), tag)
  | .getChar => (.char (charOf (mem (tag / 4))), toInt (tag + 4))
  | .getString size =>
    let t := tag / 2
    let r := copyString mem size t
    if r.2.2 = t + 1 then (.string (-1) r.1, tag)
    else (.string r.2.1 (r.1 ++ [0]), toInt (tag + r.2.1 * 2))

/-- A call with its reply.  A port of another type does something else. -/
inductive Step (mem : ℤ → UInt8) : ℤ → Call × Reply → ℤ → Prop where
  | call {tag tag' : ℤ} {c : Call} {reply : Reply} : portType tag = charStreamType →
      call mem tag c = (reply, tag') → Step mem tag (c, reply) tag'

/-! ## The cursor

What the port is for: a cursor into a text, which only the reading calls move. -/

/-- A string of the language: no byte is NUL, and one follows in memory. -/
structure Holds (mem : ℤ → UInt8) (s : List UInt8) : Prop where
  byte : ∀ i (h : i < s.length), mem i = s[i]
  nul : mem s.length = 0
  ne_zero : ∀ c ∈ s, c ≠ 0

/-- The byte at a position of the string: NUL at the end, and behind it. -/
def byteAt (s : List UInt8) (p : ℕ) : UInt8 := s[p]?.getD 0

/-- A cursor over a string. -/
inductive Cursor (s : List UInt8) : ℕ → Call × Reply → ℕ → Prop where
  | peekChar (c : ℕ) : Cursor s c (.peekChar, .char (charOf (byteAt s c))) c
  | getChar (c : ℕ) :
      Cursor s c (.getChar, .char (charOf (byteAt s c))) (min (c + 1) s.length)
  | getString {c size : ℕ} {cnt : ℤ} {buf : List UInt8} :
      cnt = min size (s.length - c) ∧ ((s.drop c).take size ++ [0]) <+: buf ∨
        c = s.length ∧ cnt = -1 →
      buf.length ≤ size + 1 →
      Cursor s c (.getString size, .string cnt buf) (c + min size (s.length - c))

/-- The tag stands for the cursor.  Its offset may be behind the end. -/
def At (s : List UInt8) (tag : ℤ) (c : ℕ) : Prop :=
  ∃ p : ℕ, tag = 4 * p ∧ tag < 2 ^ 31 ∧ c = min p s.length

/-- The calls that do what a cursor does: `scheme_port_peek_char` if the byte at twice the offset is
the right one, `scheme_port_get_char` if it does not read something behind the end, and
`scheme_port_get_string` if there is nothing to read. -/
def Meets (mem : ℤ → UInt8) (s : List UInt8) (tag : ℤ) : Call → Prop
  | .peekChar => charOf (mem (tag / 2)) = charOf (byteAt s (tag / 4).toNat)
  | .getChar => (s.length < tag / 4 → charOf (mem (tag / 4)) = eof) ∧ tag + 4 < 2 ^ 31
  | .getString size => size = 0 ∨ s.length ≤ tag / 4 ∧ (size = 1 ∨ mem (tag / 2) = 0)

instance (mem : ℤ → UInt8) (s : List UInt8) (tag : ℤ) : DecidablePred (Meets mem s tag)
  | .peekChar => inferInstanceAs (Decidable (_ = _))
  | .getChar => inferInstanceAs (Decidable ((_ → _) ∧ _))
  | .getString _ => inferInstanceAs (Decidable (_ ∨ _ ∧ (_ ∨ _)))

variable {mem : ℤ → UInt8} {s : List UInt8} {tag tag' t : ℤ} {c size p : ℕ} {reply : Reply}

theorem byteAt_min : byteAt s (min p s.length) = byteAt s p := by
  unfold byteAt
  by_cases hp : p < s.length
  · rw [Nat.min_eq_left hp.le]
  · rw [Nat.min_eq_right (by omega), List.getElem?_eq_none (Nat.le_refl _),
      List.getElem?_eq_none (by omega)]

/-- Up to the end, the memory holds what the cursor reads. -/
theorem charOf_eq_iff (hs : Holds mem s) :
    charOf (mem p) = charOf (byteAt s p) ↔ (s.length < p → charOf (mem p) = eof) := by
  by_cases hp : p < s.length
  · have hmem : mem p = byteAt s p := by
      rw [hs.byte p hp, byteAt, List.getElem?_eq_getElem hp, Option.getD_some]
    exact ⟨fun _ hlt => absurd hlt (by omega), fun _ => by rw [hmem]⟩
  · have hbyte : byteAt s p = 0 := by
      rw [byteAt, List.getElem?_eq_none (by omega), Option.getD_none]
    rw [hbyte]
    refine ⟨fun h _ => h, fun h => ?_⟩
    by_cases hend : p = s.length
    · rw [hend, hs.nul]
    · exact h (by omega)

theorem portType_of_at (h : At s tag c) : portType tag = charStreamType := by
  obtain ⟨p, rfl, -, -⟩ := h
  exact Int.mul_emod_right 4 p

/-- The loop stops behind its first byte if there is one only, or if that is NUL. -/
theorem copyString_stop (h : size = 1 ∨ size ≠ 0 ∧ mem t = 0) :
    (copyString mem size t).2.2 = t + 1 := by
  rcases h with rfl | ⟨hsize, h0⟩
  · rw [copyString]
    split_ifs <;> rfl
  · obtain ⟨size, rfl⟩ := Nat.exists_eq_succ_of_ne_zero hsize
    rw [copyString, if_pos h0]

theorem copyString_length (mem : ℤ → UInt8) (size : ℕ) (t : ℤ) :
    (copyString mem size t).1.length ≤ size := by
  induction size generalizing t with
  | zero => exact Nat.le_refl 0
  | succ size ih =>
    rw [copyString]
    split_ifs
    · exact Nat.succ_le_succ (Nat.zero_le _)
    · exact Nat.succ_le_succ (ih _)

theorem le_copyString (mem : ℤ → UInt8) (size : ℕ) (t : ℤ) : t ≤ (copyString mem size t).2.2 := by
  induction size generalizing t with
  | zero => exact Int.le_refl t
  | succ size ih =>
    rw [copyString]
    split_ifs
    · exact Int.le_add_one (Int.le_refl t)
    · exact Int.le_trans (Int.le_add_one (Int.le_refl t)) (ih (t + 1))

/-- Otherwise it goes on, and counts. -/
theorem copyString_goes (h1 : size ≠ 1) (h0 : size ≠ 0) (hc : mem t ≠ 0) :
    (copyString mem size t).2.2 ≠ t + 1 ∧ (copyString mem size t).2.1 ≠ 0 := by
  obtain ⟨size, rfl⟩ := Nat.exists_eq_succ_of_ne_zero h0
  rw [copyString, if_neg hc]
  refine ⟨?_, Nat.succ_ne_zero _⟩
  obtain ⟨size, rfl⟩ := Nat.exists_eq_succ_of_ne_zero fun h : size = 0 => h1 (by rw [h])
  change (copyString mem (size + 1) (t + 1)).2.2 ≠ t + 1
  rw [copyString]
  split_ifs
  · change t + 1 + 1 ≠ t + 1
    omega
  · have := le_copyString mem size (t + 1 + 1)
    change (copyString mem size (t + 1 + 1)).2.2 ≠ t + 1
    omega

/-- A string of no bytes. -/
theorem call_getString_zero (h0 : 0 ≤ tag) (hu : tag < 2 ^ 31) :
    call mem tag (.getString 0) = (.string 0 [0], tag) := by
  rw [call, copyString, if_neg fun h : tag / 2 = tag / 2 + 1 => absurd h (by omega)]
  have htag : tag + (0 : ℕ) * 2 = tag := by omega
  change (Reply.string 0 [0], toInt (tag + (0 : ℕ) * 2)) = _
  rw [htag, toInt_eq (by omega) hu]

/-- The end of the file, or a string of one byte. -/
theorem call_getString_stop (h : size = 1 ∨ size ≠ 0 ∧ mem (tag / 2) = 0) :
    call mem tag (.getString size) = (.string (-1) (copyString mem size (tag / 2)).1, tag) := by
  rw [call, if_pos (copyString_stop h)]

/-- **The step lemma**: a call that meets the condition does what the cursor does. -/
theorem cursor_of_meets (hs : Holds mem s) (hat : At s tag c) (call : Call)
    (hm : Meets mem s tag call) :
    ∃ c', Cursor s c (call, (Port.call mem tag call).1) c' ∧
      At s (Port.call mem tag call).2 c' := by
  obtain ⟨p, rfl, hlt, rfl⟩ := hat
  have hoff : (4 * (p : ℤ) / 4).toNat = p := by omega
  cases call with
  | peekChar =>
    rw [Meets, hoff, ← byteAt_min] at hm
    refine ⟨min p s.length, ?_, p, rfl, hlt, rfl⟩
    rw [Port.call, hm]
    exact .peekChar _
  | getChar =>
    have hchar : charOf (mem (4 * p / 4)) = charOf (byteAt s (min p s.length)) := by
      rw [Meets, Int.mul_ediv_cancel_left _ (by decide), Int.ofNat_lt] at hm
      rw [Int.mul_ediv_cancel_left _ (by decide), byteAt_min]
      exact (charOf_eq_iff hs).mpr hm.1
    have hu : 4 * (p : ℤ) + 4 < 2 ^ 31 := hm.2
    have htag : (Port.call mem (4 * p) .getChar).2 = 4 * (p + 1 : ℕ) :=
      (toInt_eq (by omega) hu).trans (by omega)
    refine ⟨min (min p s.length + 1) s.length, ?_, p + 1, htag, ?_, by omega⟩
    · rw [Port.call, hchar]
      exact .getChar _
    · rw [htag]
      omega
  | getString size =>
    by_cases hsize : size = 0
    · subst hsize
      rw [call_getString_zero (by omega) hlt]
      refine ⟨min p s.length + min 0 (s.length - min p s.length), ?_, p, rfl, hlt, by omega⟩
      exact .getString (.inl ⟨by simp, List.prefix_rfl⟩) (Nat.le_refl _)
    · obtain ⟨hle, hm⟩ := hm.resolve_left hsize
      rw [call_getString_stop (hm.imp_right fun h => ⟨hsize, h⟩)]
      refine ⟨min p s.length + min size (s.length - min p s.length), ?_, p, rfl, hlt, by omega⟩
      have hlen := copyString_length mem size (4 * p / 2)
      exact .getString (.inr ⟨by omega, rfl⟩) (by omega)

/-- **The condition is exact**: no other call does what the cursor does. -/
theorem meets_of_cursor (hs : Holds mem s) (hat : At s tag c) {call : Call} {c' : ℕ}
    (hc : Cursor s c (call, (Port.call mem tag call).1) c')
    (hat' : At s (Port.call mem tag call).2 c') : Meets mem s tag call := by
  obtain ⟨p, rfl, hlt, rfl⟩ := hat
  have hoff : (4 * (p : ℤ) / 4).toNat = p := by omega
  cases call with
  | peekChar =>
    rw [Meets, hoff, ← byteAt_min]
    generalize hr : (Port.call mem (4 * p) .peekChar).1 = r at hc
    cases hc
    exact Reply.char.inj hr
  | getChar =>
    obtain ⟨p', htag, -, -⟩ := hat'
    generalize hr : (Port.call mem (4 * p) .getChar).1 = r at hc
    cases hc
    have hchar := Reply.char.inj hr
    rw [Int.mul_ediv_cancel_left _ (by decide), byteAt_min, charOf_eq_iff hs] at hchar
    rw [Meets, Int.mul_ediv_cancel_left _ (by decide), Int.ofNat_lt]
    refine ⟨hchar, ?_⟩
    change toInt (4 * (p : ℤ) + 4) = _ at htag
    unfold toInt at htag
    omega
  | getString size =>
    by_cases hsize : size = 0
    · exact .inl hsize
    right
    by_cases hstop : size = 1 ∨ mem (4 * p / 2) = 0
    · refine ⟨?_, hstop⟩
      rw [call_getString_stop (hstop.imp_right fun h => ⟨hsize, h⟩)] at hc
      cases hc with
      | getString hcnt _ => omega
    · -- something is read, and the tag advances by too little
      rw [not_or] at hstop
      obtain ⟨hgo, hcnt⟩ := copyString_goes hstop.1 hsize hstop.2
      rw [Port.call, if_neg hgo] at hc hat'
      obtain ⟨p', htag, -, hc'⟩ := hat'
      change toInt (4 * (p : ℤ) + (copyString mem size (4 * p / 2)).2.1 * 2) = _ at htag
      unfold toInt at htag
      generalize (copyString mem size (4 * p / 2)).2.1 = n at hc htag hcnt
      cases hc with
      | getString hcnt _ => omega

/-! ## Runs -/

/-- The calls that do not run into a slip. -/
abbrev Sound (mem : ℤ → UInt8) (s : List UInt8) : ℤ → Call × Reply → ℤ → Prop :=
  Guarded (fun tag c => Meets mem s tag c.1) (Step mem)

theorem runs_cursor (hs : Holds mem s) {calls : List (Call × Reply)}
    (hr : Runs (Sound mem s) tag calls tag') (hat : At s tag c) :
    ∃ c', Runs (Cursor s) c calls c' ∧ At s tag' c' := by
  induction hr generalizing c with
  | nil => exact ⟨c, .nil c, hat⟩
  | cons hst _ ih =>
    obtain ⟨hm, ⟨-, hcall⟩⟩ := hst
    obtain ⟨c', hc, hat'⟩ := cursor_of_meets hs hat _ hm
    rw [hcall] at hc hat'
    obtain ⟨c'', hrest, hat''⟩ := ih hat'
    exact ⟨c'', .cons hc hrest, hat''⟩

theorem at_zero (s : List UInt8) : At s charStreamType 0 :=
  ⟨0, rfl, by decide, (Nat.zero_min _).symm⟩

/-- **A port is a cursor** over its string in every run of calls that meet the condition, and its
type bits stay the same. -/
theorem cursor_of_run (hs : Holds mem s) {calls : List (Call × Reply)}
    (hr : Runs (Sound mem s) charStreamType calls tag) :
    ∃ c, Runs (Cursor s) 0 calls c ∧ At s tag c ∧ portType tag = charStreamType := by
  obtain ⟨c, hc, hat⟩ := runs_cursor hs hr (at_zero s)
  exact ⟨c, hc, hat, portType_of_at hat⟩

/-- The memory of the string, with NUL bytes behind it. -/
def memoryOf (s : List UInt8) (i : ℤ) : UInt8 := byteAt s i.toNat

theorem holds_memoryOf (h : ∀ c ∈ s, c ≠ 0) : Holds (memoryOf s) s where
  byte i hi := by
    rw [memoryOf, Int.toNat_natCast, byteAt, List.getElem?_eq_getElem hi, Option.getD_some]
  nul := by
    rw [memoryOf, Int.toNat_natCast, byteAt, List.getElem?_eq_none (Nat.le_refl _),
      Option.getD_none]
  ne_zero := h

/-- A character is looked at and read, and then the end twice. -/
theorem cursor_of_run_char : ∃ c, Runs (Cursor [97]) 0 [(.peekChar, .char 97),
    (.getChar, .char 97), (.peekChar, .char eof), (.getChar, .char eof)] c ∧ At [97] 8 c ∧
      portType 8 = charStreamType := by
  have hmeets (tag : ℤ) (c : Call) (h : decide (Meets (memoryOf [97]) [97] tag c) = true) :
      Meets (memoryOf [97]) [97] tag c := of_decide_eq_true h
  have hfirst : Step (memoryOf [97]) 0 (.peekChar, .char 97) 0 := .call rfl (by decide)
  have hget : Step (memoryOf [97]) 0 (.getChar, .char 97) 4 := .call rfl (by decide)
  have hend : Step (memoryOf [97]) 4 (.peekChar, .char eof) 4 := .call rfl (by decide)
  have heof : Step (memoryOf [97]) 4 (.getChar, .char eof) 8 := .call rfl (by decide)
  refine cursor_of_run (holds_memoryOf (s := [97]) (by simp)) ?_
  exact .cons ⟨hmeets 0 .peekChar (by decide), hfirst⟩ (.cons ⟨hmeets 0 .getChar (by decide), hget⟩
    (.cons ⟨hmeets 4 .peekChar (by decide), hend⟩ (.single ⟨hmeets 4 .getChar (by decide), heof⟩)))

/-- In a string of two characters the second is not seen behind the first. -/
theorem not_cursor : ¬∀ (mem : ℤ → UInt8) (s : List UInt8), Holds mem s →
    ∀ (calls : List (Call × Reply)) (tag : ℤ), Runs (Step mem) charStreamType calls tag →
      ∃ c, Runs (Cursor s) 0 calls c ∧ portType tag = charStreamType := by
  intro hall
  have hget : Step (memoryOf [97, 98]) 0 (.getChar, .char 97) 4 := .call rfl (by decide)
  have hpeek : Step (memoryOf [97, 98]) 4 (.peekChar, .char eof) 4 := .call rfl (by decide)
  obtain ⟨c, hr, -⟩ := hall _ [97, 98] (holds_memoryOf (by simp)) _ 4 (.cons hget (.single hpeek))
  cases hr with
  | cons hget hr =>
    cases hget
    cases hr with
    | cons hpeek _ =>
      generalize heq : Reply.char eof = r at hpeek
      cases hpeek
      exact absurd (Reply.char.inj heq) (by decide)

end SchemeOs.Port
