import SchemeOs.Reader.Depth
import SchemeOs.Reader.Marks

/-!
# Reader/Steady — texts that are read the same after any reads

A mark in a word takes the slot in which the word was begun.  What goes on with the word is about
the next slot, which holds a token of an earlier read, unless an opening bracket or another mark
follows first.  A string whose loop does not end at a quote has no end in the buffer.  And a list
or a quote mark that is left open inside of a list makes the parser look behind the tokens.  A text
is steady when none of this is in the part of it that is read.
-/

namespace SchemeOs

open LexM

/-! ## Steady texts

An automaton over the text alone: no token of it is left to what the arrays held before. -/

/-- What the lexer is in: white space; a word whose slot is begun, or a word whose slot is not; a
string or a character, whose slot it has left. -/
inductive Phase where
  | blank | word | torn | literal
  deriving DecidableEq

namespace Phase

/-- `stat` -/
def stat : Phase → Bool
  | .word | .torn => true
  | _ => false

/-- A token has been begun whose text has not ended. -/
def pending : Phase → Bool
  | .word | .literal => true
  | _ => false

/-- The phase after a mark. -/
def marked : Phase → Phase
  | .blank => .blank
  | _ => .torn

/-- The phase after `@`. -/
def begun : Phase → Phase
  | .blank => .word
  | φ => φ

end Phase

/-- The loop over a string, which takes the characters in pairs, ends at a quote. -/
def Closes : List Char → Prop
  | c :: d :: rest =>
    charVal c ≤ 0x7e ∧ charVal d ≥ 0x20 ∧
      if d = '\\' then
        match rest with
        | [] => False
        | _ :: rest => Closes rest
      else if d = '"' then True
      else Closes rest
  | _ => False

/-- A character that stands for itself. -/
structure Ordinary (c : Char) : Prop where
  space : isspace c = false
  notMem : c ∉ ['\x00', EOF, '(', ')', '"', '#', '\'', '`', ',', '@', '.']

/-- **Steady texts**: the rest of a text in a phase, with `k` lists open, where `mark` says whether
the last token is a quote mark. -/
inductive Steady : Phase → ℤ → Bool → List Char → Prop where
  | stop {φ k mark p} (hp : ∀ c ∈ p.head?, c = '\x00' ∨ c = EOF) (hφ : φ ≠ .torn) (hk : k ≤ 1)
      (hmark : φ = .blank → mark = true → k ≤ 0) : Steady φ k mark p
  | last {mark c p} (hc : isspace c = true) : Steady .word 0 mark (c :: p)
  | space {k mark c p} (hc : isspace c = true) (h : Steady .blank k mark p) :
      Steady .blank k mark (c :: p)
  | ends {k mark c p} (hc : isspace c = true) (hk : k ≠ 0) (h : Steady .blank k false p) :
      Steady .word k mark (c :: p)
  | opening {φ k mark p} (h : Steady .blank (k + 1) false p) : Steady φ k mark ('(' :: p)
  | closing {φ k mark p} (hφ : φ ≠ .torn) (h : k ≠ 1 → Steady .blank (k - 1) false p) :
      Steady φ k mark (')' :: p)
  | string {φ k mark p} (hφ : φ ≠ .torn) (hp : Closes p)
      (h : Steady .blank k false (stringRest p)) : Steady φ k mark ('"' :: p)
  | sharpWord {φ k mark p} (hφ : φ ≠ .blank) (h : Steady φ k mark p) : Steady φ k mark ('#' :: p)
  | vector {k mark p} (h : Steady .blank (k + 1) false p) : Steady .blank k mark ('#' :: '(' :: p)
  | character {k mark p} (h : Steady .blank k false (charRest p)) :
      Steady .blank k mark ('#' :: '\\' :: p)
  | sharp {k mark c t p} (hc : sharpType c = some t) (h : Steady .blank k false p) :
      Steady .blank k mark ('#' :: c :: p)
  | sharpNone {k mark p} (hp : ∀ c ∈ p.head?, sharpType c = none ∧ c ≠ '(' ∧ c ≠ '\\')
      (h : Steady .blank k mark p.tail) : Steady .blank k mark ('#' :: p)
  | quote {φ k mark p} (h : Steady φ.marked k true p) : Steady φ k mark ('\'' :: p)
  | backquote {φ k mark p} (h : Steady φ.marked k false p) : Steady φ k mark ('`' :: p)
  | commaAt {φ k mark p} (h : Steady φ.marked k false p) : Steady φ k mark (',' :: '@' :: p)
  | comma {φ k mark c p} (hc : c ∉ ['\x00', EOF, '@']) (h : Steady φ.marked k false (c :: p)) :
      Steady φ k mark (',' :: c :: p)
  | commaEnd {φ k mark p} (hp : ∀ c ∈ p.head?, c = '\x00' ∨ c = EOF)
      (h : Steady φ.marked k false p.tail) : Steady φ k mark (',' :: p)
  | atSign {φ k mark p} (h : Steady φ.begun k mark p) : Steady φ k mark ('@' :: p)
  | point {φ k mark p} (hφ : φ ≠ .torn) (h : Steady .word k mark p) : Steady φ k mark ('.' :: p)
  | char {φ k mark c p} (hc : Ordinary c) (hprint : (isdigit c || isprint c) = true)
      (hφ : φ ≠ .torn) (h : Steady .word k mark p) : Steady φ k mark (c :: p)
  | other {φ k mark c p} (hc : Ordinary c) (hprint : (isdigit c || isprint c) = false)
      (h : Steady φ k mark p) : Steady φ k mark (c :: p)

/-! ## The same tokens in two arrays

Two arrays that have the same types in the slots used, and the same texts, wherever these stand. -/

/-- Tokens that have a text, and dots. -/
def TokenType.isWritten : TokenType → Bool
  | .symbol | .number | .point | .char | .string => Bool.true
  | _ => Bool.false

/-- The arrays with a character more. -/
abbrev Buffers.put (b : Buffers) (k : ℕ) (c : Char) : Buffers :=
  { b with scan := Function.update b.scan k (some c) }

/-- The arrays with a token more. -/
abbrev Buffers.set (b : Buffers) (k : ℕ) (u : Token) : Buffers :=
  { b with tokens := Function.update b.tokens k (some u) }

/-- The slot `k` holds a token of the type, with a text that ends before `e` where it has one. -/
def SameSlot (b b' : Buffers) (e k : ℕ) (t : TokenType) : Prop :=
  ∃ u u', b.tokens k = some u ∧ b'.tokens k = some u' ∧ u.type = t ∧ u'.type = t ∧
    (t.isWritten = true → ∃ j m, u.token = some j ∧ u'.token = some j ∧ j ≤ m ∧ m < e ∧
      b.scan m = some '\x00')

/-- The arrays hold the same tokens, and the same characters below `s`.  A token that is pending was
begun at least `e` characters before `s`. -/
def SameBuffers (ts : List TokenType) (pending : Bool) (e s : ℕ) (b b' : Buffers) : Prop :=
  ∃ j, j + e ≤ s ∧ (∀ k < s, b'.scan k = b.scan k) ∧
    (∀ k t, ts[k]? = some t → SameSlot b b' j k t) ∧
      (pending = true → ∃ t, t.isWritten = true ∧ b.tokens ts.length = some ⟨t, some j⟩ ∧
        b'.tokens ts.length = some ⟨t, some j⟩)

variable {ts : List TokenType} {pending : Bool} {e e' s s' q i j k n : ℕ} {b b' : Buffers}
  {t : TokenType} {c d : Char}

theorem SameSlot.mono (h : SameSlot b b' e k t) (he : e ≤ e') : SameSlot b b' e' k t := by
  obtain ⟨u, u', hu, hu', htype, htype', htext⟩ := h
  refine ⟨u, u', hu, hu', htype, htype', fun ht => ?_⟩
  obtain ⟨j, m, hj, hj', hjm, hm, hnul⟩ := htext ht
  exact ⟨j, m, hj, hj', hjm, hm.trans_le he, hnul⟩

/-- A character behind the texts. -/
theorem SameSlot.scan (h : SameSlot b b' e k t) (hq : e ≤ q) :
    SameSlot (b.put q c) (b'.put q c) e k t := by
  obtain ⟨u, u', hu, hu', htype, htype', htext⟩ := h
  refine ⟨u, u', hu, hu', htype, htype', fun ht => ?_⟩
  obtain ⟨j, m, hj, hj', hjm, hm, hnul⟩ := htext ht
  exact ⟨j, m, hj, hj', hjm, hm, (Function.update_of_ne (by omega) _ _).trans hnul⟩

/-- A token in another slot. -/
theorem SameSlot.tokens (h : SameSlot b b' e k t) (hk : k ≠ q) (u u' : Token) :
    SameSlot (b.set q u) (b'.set q u') e k t := by
  obtain ⟨v, v', hv, hv', h⟩ := h
  exact ⟨v, v', (Function.update_of_ne hk _ _).trans hv,
    (Function.update_of_ne hk _ _).trans hv', h⟩

theorem lt_of_getElem? (h : ts[k]? = some t) : k < ts.length :=
  (List.getElem?_eq_some_iff.mp h).1

/-- The slots of a list of tokens with one more. -/
theorem forall_append {P : ℕ → TokenType → Prop} (h : ∀ k u, ts[k]? = some u → P k u)
    (ht : P ts.length t) (k : ℕ) (u : TokenType) (hk : (ts ++ [t])[k]? = some u) : P k u := by
  rcases Nat.lt_or_ge k ts.length with hlt | hge
  · rw [List.getElem?_append_left hlt] at hk
    exact h k u hk
  · have hlt := lt_of_getElem? hk
    rw [List.length_append, List.length_singleton] at hlt
    obtain rfl : k = ts.length := by omega
    rw [List.getElem?_concat_length] at hk
    exact Option.some.inj hk ▸ ht

theorem scan_update (h : ∀ k < s, b'.scan k = b.scan k) (hs : ∀ k < s', k < s ∨ k = q) :
    ∀ k < s', Function.update b'.scan q (some c) k = Function.update b.scan q (some c) k := by
  intro k hk
  by_cases hkq : k = q
  · rw [hkq, Function.update_self, Function.update_self]
  · rw [Function.update_of_ne hkq, Function.update_of_ne hkq]
    exact h k ((hs k hk).resolve_right hkq)

namespace SameBuffers

theorem mono (h : SameBuffers ts pending e s b b') (he : e' ≤ e) :
    SameBuffers ts pending e' s b b' := by
  obtain ⟨j, hj, h⟩ := h
  exact ⟨j, by omega, h⟩

/-- A character of the text that is pending. -/
theorem write (h : SameBuffers ts pending e s b b') (hq : s ≤ q + e)
    (hs : ∀ k < s', k < s ∨ k = q) (he : s + e' ≤ s' + e) :
    SameBuffers ts pending e' s' (b.put q c) (b'.put q c) := by
  obtain ⟨j, hj, hscan, hslots, hpending⟩ := h
  exact ⟨j, by omega, scan_update hscan hs, fun k t hk => (hslots k t hk).scan (by omega), hpending⟩

/-- The end of the text that is pending. -/
theorem close (h : SameBuffers ts true e s b b') (hq : s ≤ q + e)
    (hs : ∀ k < s', k < s ∨ k = q) (hlt : q < s') :
    ∃ t, t.isWritten = true ∧
      SameBuffers (ts ++ [t]) false 0 s' (b.put q '\x00') (b'.put q '\x00') := by
  obtain ⟨j, hj, hscan, hslots, hpending⟩ := h
  obtain ⟨t, ht, htok, htok'⟩ := hpending rfl
  refine ⟨t, ht, s', le_rfl, scan_update hscan hs, forall_append (fun k t hk => ?_) ?_,
    fun h => absurd h Bool.false_ne_true⟩
  · exact ((hslots k t hk).scan (by omega)).mono (by omega)
  · exact ⟨_, _, htok, htok', rfl, rfl, fun _ => ⟨j, q, rfl, rfl, by omega, hlt,
      Function.update_self _ _ _⟩⟩

/-- A token without a text. -/
theorem push (h : SameBuffers ts pending e s b b') (ht : t.isWritten = false) (o o' : Option ℕ) :
    SameBuffers (ts ++ [t]) false 0 s (b.set ts.length ⟨t, o⟩) (b'.set ts.length ⟨t, o'⟩) := by
  obtain ⟨j, hj, hscan, hslots, -⟩ := h
  refine ⟨j, by omega, hscan, forall_append (fun k t hk => ?_) ?_,
    fun h => absurd h Bool.false_ne_true⟩
  · exact (hslots k t hk).tokens (lt_of_getElem? hk).ne _ _
  · exact ⟨_, _, Function.update_self _ _ _, Function.update_self _ _ _, rfl, rfl,
      fun hw => absurd hw (by rw [ht]; exact Bool.false_ne_true)⟩

/-- A token whose text begins. -/
theorem start (h : SameBuffers ts pending e s b b') (ht : t.isWritten = true) :
    SameBuffers ts true 0 s (b.set ts.length ⟨t, some s⟩) (b'.set ts.length ⟨t, some s⟩) := by
  obtain ⟨j, hj, hscan, hslots, -⟩ := h
  refine ⟨s, le_rfl, hscan, fun k t hk => ?_, fun _ => ⟨t, ht, Function.update_self _ _ _,
    Function.update_self _ _ _⟩⟩
  exact ((hslots k t hk).tokens (lt_of_getElem? hk).ne _ _).mono (by omega)

/-- Another type for the token that is pending. -/
theorem retype (h : SameBuffers ts true e s b b') (ht : t.isWritten = true) :
    SameBuffers ts true e s (b.set ts.length ⟨t, (b.tokens ts.length).bind Token.token⟩)
      (b'.set ts.length ⟨t, (b'.tokens ts.length).bind Token.token⟩) := by
  obtain ⟨j, hj, hscan, hslots, hpending⟩ := h
  obtain ⟨u, -, htok, htok'⟩ := hpending rfl
  rw [htok, htok']
  exact ⟨j, hj, hscan, fun k t hk => (hslots k t hk).tokens (lt_of_getElem? hk).ne _ _, fun _ =>
    ⟨t, ht, Function.update_self _ _ _, Function.update_self _ _ _⟩⟩

end SameBuffers

/-! ## Two lexers on one text

They go in step, each in its own arrays. -/

/-- How far the index is ahead of the tokens that have ended. -/
def Phase.ahead : Phase → ℕ
  | .literal => 1
  | _ => 0

/-- The variables of a lexer in a phase, with `k` lists open and the text `p` before it. -/
structure Standing (ts : List TokenType) (φ : Phase) (k : ℤ) (p : List Char) (l : Lexer) :
    Prop where
  port : l.port = p
  i : l.i = ts.length + φ.ahead
  stack : l.stack = k
  stat : l.stat = φ.stat
  finished : l.finished = false
  notEnd : .tagEnd ∉ ts

/-- Two lexers at the same place, which have made the same tokens. -/
def Twin (ts : List TokenType) (φ : Phase) (e : ℕ) (k : ℤ) (p : List Char) (l l' : Lexer) : Prop :=
  ∃ b', l' = { l with toBuffers := b' } ∧ Standing ts φ k p l ∧
    SameBuffers ts φ.pending e l.s l.toBuffers b'

/-- Two lexers at the end, with tokens that are no more than one datum. -/
def Ended (l l' : Lexer) : Prop :=
  ∃ (ts : List TokenType) (φ : Phase) (b' : Buffers), l' = { l with toBuffers := b' } ∧
    l.i = ts.length ∧ l.stat = φ.stat ∧ .tagEnd ∉ ts ∧
      SameBuffers ts φ.pending 0 l.s l.toBuffers b' ∧
      (φ = .blank ∧ Contained ts ∨ φ = .word ∧ balance ts ≤ 1)

section Steps

variable {φ : Phase} {k : ℤ} {p : List Char} {l l' : Lexer}

theorem Twin.mono (h : Twin ts φ e k p l l') (he : e' ≤ e) : Twin ts φ e' k p l l' := by
  obtain ⟨b', hl', hl, hb⟩ := h
  exact ⟨b', hl', hl, hb.mono he⟩

variable {mark : Bool}

theorem balance_snoc : balance (ts ++ [t]) = balance ts + t.weight := by
  rw [balance_append, balance_cons]
  exact congrArg _ (add_zero _)

/-- The last token is a quote mark only where it has been pushed. -/
theorem mark_snoc (ht : t ≠ .quote) (hlast : (ts ++ [t]).getLast? = some .quote) :
    mark = true := by
  rw [List.getLast?_concat] at hlast
  exact absurd (Option.some.inj hlast) ht

/-- Two lexers that have made the same tokens, of which the last may be a quote mark if `mark`. -/
def Twins (mark : Bool) (φ : Phase) (k : ℤ) (p : List Char) (l l' : Lexer) : Prop :=
  ∃ ts, (balance ts = k ∧ (ts.getLast? = some .quote → mark = true)) ∧ Twin ts φ 0 k p l l'

/-- The loop comes to the end from both. -/
def Finishes (mark : Bool) (φ : Phase) (k : ℤ) (p : List Char) : Prop :=
  ∀ n, Coupled (Twins mark φ k p) (lexLoop n) (lexLoop n) fun _ => Ended

/-- A token more, which is no quote mark. -/
theorem Twin.snoc {k' : ℤ} (h : Twin (ts ++ [t]) φ e k' p l l') (hbal : balance ts = k)
    (hw : k + t.weight = k') (ht : t ≠ .quote) : Twins mark φ k' p l l' :=
  ⟨ts ++ [t], ⟨by rw [balance_snoc, hbal, hw], mark_snoc ht⟩, h.mono (Nat.zero_le _)⟩

theorem textFrom_congr {m : ℕ} (hj : j ≤ m) (hnul : b.scan m = some '\x00')
    (hscan : ∀ k ≤ m, b'.scan k = b.scan k) : textFrom b' n j = textFrom b n j := by
  induction n generalizing j with
  | zero => rfl
  | succ n ih =>
    rw [textFrom, textFrom, hscan j hj]
    refine Option.bind_congr fun c hc => ?_
    by_cases hend : c = '\x00'
    · rw [if_pos hend, if_pos hend]
    · have hne : j ≠ m := by
        rintro rfl
        exact hend (Option.some.inj (hc.symm.trans hnul))
      rw [if_neg hend, if_neg hend, ih (by omega)]

/-- The same tokens stand for the same data. -/
theorem SameSlot.tokenToObj {m : ℕ} (h : SameSlot b b' e m t) (he : e ≤ s)
    (hscan : ∀ k < s, b'.scan k = b.scan k) : ∃ u u', b.tokens m = some u ∧
      b'.tokens m = some u' ∧ u.type = t ∧ u'.type = t ∧ tokenToObj b' u' = tokenToObj b u := by
  obtain ⟨u, u', hu, hu', htype, htype', htext⟩ := h
  refine ⟨u, u', hu, hu', htype, htype', ?_⟩
  unfold SchemeOs.tokenToObj
  rw [htype, htype']
  have hsame (ht : t.isWritten = true) : tokenText b' u' = tokenText b u ∧
      u'.token.bind b'.scan = u.token.bind b.scan := by
    obtain ⟨j, m, hj, hj', hjm, hm, hnul⟩ := htext ht
    have hle : ∀ k ≤ m, b'.scan k = b.scan k := fun k hk => hscan k (by omega)
    rw [tokenText, tokenText, hj, hj', Option.bind_some, Option.bind_some, Option.bind_some,
      Option.bind_some]
    exact ⟨textFrom_congr hjm hnul hle, hle j hjm⟩
  cases t with
  | symbol | number | string | char => simp only [hsame rfl]
  | _ => rfl

end Steps

end SchemeOs
