import Mathlib.Data.List.Basic
import SchemeOs.Reader.Grammar

/-!
# Reader/Tokens — runs of the lexer

Between two tokens the lexer has written a list of lexemes.  A bracket is written at once.  A word
is open until the character after it is read, and only then is its text closed.
-/

namespace SchemeOs

variable {l l' l₁ : Lexer} {c : Char} {rest w port : List Char} {xs : List Lexeme} {x : Lexeme}
  {t : TokenType} {n j e : ℕ} {stack : ℤ} {b : Bool}

/-! ## Characters -/

/-- A character that stands for itself in a word. -/
structure NameChar (c : Char) : Prop where
  ge : 0x21 ≤ c.toNat
  le : c.toNat ≤ 0x7e
  notMem : c ∉ ['(', ')', '"', '#', '\'', '`', ',', '@', '.']

theorem ne_of_toNat {c d : Char} (h : c.toNat ≠ d.toNat) : c ≠ d := fun heq => h (by rw [heq])

/-- A character of a printed datum. -/
theorem ne_EOF_of_le (h : c.toNat ≤ 0x7e) : c ≠ EOF := by
  refine ne_of_toNat fun heq => ?_
  have hEOF : EOF.toNat = 0xff := by decide
  omega

theorem NameChar.isspace (h : NameChar c) : isspace c = false := by
  have := h.ge
  simp only [SchemeOs.isspace, Bool.or_eq_false_iff, decide_eq_false_iff_not]
  refine ⟨⟨⟨⟨⟨?_, ?_⟩, ?_⟩, ?_⟩, ?_⟩, ?_⟩ <;>
    · rintro rfl
      exact absurd this (by decide)

theorem NameChar.ne_nul (h : NameChar c) : c ≠ '\x00' := by
  rintro rfl
  exact absurd h.ge (by decide)

theorem NameChar.isprint (h : NameChar c) : isprint c = true := by
  have hge := h.ge
  have hle := h.le
  have hval : charVal c = c.toNat := if_pos (by omega)
  simp only [SchemeOs.isprint, hval, Bool.and_eq_true, decide_eq_true_eq]
  omega

/-! ## The end of the text

The port is the memory from the next character on, and what lies behind the NUL is not read. -/

/-- The text of the port ends here. -/
def AtEnd (port : List Char) : Prop := ∀ c ∈ port.head?, c = '\x00'

theorem AtEnd.nil : AtEnd [] := by simp [AtEnd]

theorem AtEnd.nul : AtEnd ('\x00' :: port) := by simp [AtEnd]

/-- The end of a text: NUL, the character `EOF`, or nothing. -/
theorem schemePortGetChar_of_head? (hport : ∀ c ∈ port.head?, c = '\x00' ∨ c = EOF) :
    schemePortGetChar port = (EOF, port.tail) := by
  cases port with
  | nil => rfl
  | cons c port => obtain rfl | rfl := hport c rfl <;> rfl

/-! ## The loop

One round of the loop takes the lexer from one state to the next, with some fuel. -/

section Run

open LexM

theorem run_store (hk : n < schemeMaxExprLen) : (store n c).run l =
    some ((), { l with scan := Function.update l.scan n (some c) }) := if_pos hk

theorem run_putChar (hs : l.s < schemeMaxExprLen) : (putChar c).run l =
    some ((), { l with scan := Function.update l.scan l.s (some c), s := l.s + 1 }) := by
  change ((store l.s c).run l).bind _ = _
  rw [run_store hs]
  rfl

theorem run_setType (hi : l.i < lexTokenMax) : (setType t).run l = some ((), { l with
    tokens := Function.update l.tokens l.i (some ⟨t, (l.tokens l.i).bind Token.token⟩) }) :=
  if_pos hi

theorem run_pushType (hi : l.i < lexTokenMax) : (pushType t).run l = some ((), { l with
    tokens := Function.update l.tokens l.i (some ⟨t, (l.tokens l.i).bind Token.token⟩),
    i := l.i + 1 }) := by
  change ((setType t).run l).bind _ = _
  rw [run_setType hi]
  rfl

theorem run_setToken {u : Token} (hu : l.tokens l.i = some u) : setToken.run l = some ((), { l with
    tokens := Function.update l.tokens l.i (some ⟨u.type, some l.s⟩) }) := by
  simp only [StateT.run, setToken, hu, Option.map_some]

theorem run_beginWord (hi : l.i < lexTokenMax) : (beginWord t).run l = some ((), { l with
    tokens := Function.update l.tokens l.i (some ⟨t, some l.s⟩), stat := true }) := by
  change ((setType t).run l).bind _ = _
  rw [run_setType hi, Option.bind_some]
  change (setToken.run _).bind _ = _
  rw [run_setToken (Function.update_self _ _ _), Function.update_idem]
  rfl

/-- The text of the word is ended, and its slot left. -/
theorem run_endWord (hs : l.s < schemeMaxExprLen) : endWord.run l = some ((), { l with
    stat := false, scan := Function.update l.scan l.s (some '\x00'), s := l.s + 1,
    i := l.i + 1 }) := by
  change ((putChar '\x00').run { l with stat := false }).bind _ = _
  rw [run_putChar (l := { l with stat := false }) hs]
  rfl

end Run

/-- The loop comes from `l` to `l'`. -/
def Lexer.Goes (l l' : Lexer) : Prop := ∀ l₁, Ends lexLoop l' () l₁ → Ends lexLoop l () l₁

theorem Lexer.Goes.trans (h : l.Goes l') (h' : l'.Goes l₁) : l.Goes l₁ := fun _ he => h _ (h' _ he)

theorem run_getChar (hport : l.port = c :: rest) (hc : c ≠ '\x00') :
    LexM.getChar.run l = some (c, { l with port := rest }) := by
  simp only [StateT.run, LexM.getChar, hport, schemePortGetChar, if_neg hc]

/-- One turn of the loop with a character that is neither white space nor a comma. -/
theorem ends_of_switch (hport : l.port = c :: rest) (hnul : c ≠ '\x00') (hEOF : c ≠ EOF)
    (hspace : isspace c = false) (hcomma : c ≠ ',')
    (hrun : ∀ n, (lexSwitch n c).run { l with port := rest } = some ((), l'))
    (h : Ends (fun n => if l'.finished then pure () else lexLoop n) l' () l₁) :
    Ends lexLoop l () l₁ := by
  refine .succ (.run_bind (run_getChar hport hnul) (.ite_neg hEOF (.succ ?_)))
  refine .congr (f := fun n => do
    lexSwitch n c
    if (← get).finished then return () else lexLoop n) (fun n => ?_) ?_
  · rw [nextLoop, hspace, if_neg Bool.false_ne_true, if_neg hcomma]
  · obtain ⟨N, hN⟩ := h
    refine ⟨N, fun n hn => ?_⟩
    simp only [StateT.run_bind, hrun n]
    exact hN n hn

/-- One round whose character is no white space, no comma and not the end. -/
theorem Lexer.Goes.of_switch (hport : l.port = c :: rest) (hnul : c ≠ '\x00') (hEOF : c ≠ EOF)
    (hspace : isspace c = false) (hcomma : c ≠ ',')
    (hrun : ∀ n, (lexSwitch n c).run { l with port := rest } = some ((), l'))
    (hfin : l'.finished = false) : l.Goes l' := fun _ h =>
  ends_of_switch hport hnul hEOF hspace hcomma hrun
    (.ite_neg (by rw [hfin]; exact Bool.false_ne_true) h)

/-! ## What is written -/

/-- The lexer has written the tokens `xs`, and their texts lie below `s`. -/
structure Lexer.Written (l : Lexer) (xs : List Lexeme) : Prop where
  i : l.i = xs.length
  slot : ∀ k x, xs[k]? = some x → ∃ t, l.tokens k = some t ∧ t.type = x.type ∧
    ∀ b : Buffers, (∀ j < l.s, b.scan j = l.scan j) → tokenToObj b t = some x.obj

namespace Lexer.Written

/-- More characters change nothing. -/
theorem mono (h : l.Written xs) (hi : l'.i = l.i) (hs : l.s ≤ l'.s)
    (hscan : ∀ j < l.s, l'.scan j = l.scan j) (htok : ∀ k < l.i, l'.tokens k = l.tokens k) :
    l'.Written xs where
  i := hi.trans h.i
  slot k x hx := by
    obtain ⟨t, ht, htype, hobj⟩ := h.slot k x hx
    have hk : k < xs.length := (List.getElem?_eq_some_iff.mp hx).1
    refine ⟨t, by rw [htok k (h.i ▸ hk), ht], htype, fun b hb => hobj b fun j hj => ?_⟩
    rw [hb j (by omega), hscan j hj]

/-- One token more. -/
theorem push (h : l.Written xs) (hi : l'.i = l.i + 1) (hs : l.s ≤ l'.s)
    (hscan : ∀ j < l.s, l'.scan j = l.scan j) (htok : ∀ k < l.i, l'.tokens k = l.tokens k)
    {u : Token} (hu : l'.tokens l.i = some u) (htype : u.type = x.type)
    (hobj : ∀ b : Buffers, (∀ j < l'.s, b.scan j = l'.scan j) → tokenToObj b u = some x.obj) :
    l'.Written (xs ++ [x]) where
  i := by rw [hi, h.i, List.length_append, List.length_singleton]
  slot k y hy := by
    rcases Nat.lt_trichotomy k xs.length with hk | rfl | hk
    · rw [List.getElem?_append_left hk] at hy
      obtain ⟨t, ht, htype, hobj⟩ := h.slot k y hy
      refine ⟨t, by rw [htok k (h.i ▸ hk), ht], htype, fun b hb => hobj b fun j hj => ?_⟩
      rw [hb j (by omega), hscan j hj]
    · rw [List.getElem?_concat_length] at hy
      cases hy
      exact ⟨u, h.i ▸ hu, htype, hobj⟩
    · rw [List.getElem?_eq_none (by simpa using Nat.succ_le_of_lt hk)] at hy
      cases hy

/-- The array holds what is written, and the marker. -/
theorem holds (h : l.Written xs) (hend : ∃ t, l.tokens l.i = some t ∧ t.type = .tagEnd) :
    l.toBuffers.Holds 0 xs := by
  have hdrop : ∀ m k, k + m = xs.length → l.toBuffers.Holds k (xs.drop k) := by
    intro m
    induction m with
    | zero =>
      intro k hk
      obtain rfl : k = xs.length := hk
      rw [List.drop_length]
      exact h.i ▸ hend
    | succ m ih =>
      intro k hk
      have hlt : k < xs.length := by omega
      rw [List.drop_eq_getElem_cons hlt]
      obtain ⟨t, ht, htype, hobj⟩ := h.slot k _ (List.getElem?_eq_getElem hlt)
      exact ⟨⟨t, ht, htype, hobj _ fun _ _ => rfl⟩, ih (k + 1) (by omega)⟩
  exact hdrop xs.length 0 (Nat.zero_add _)

end Lexer.Written

/-- The lexer is between two tokens. -/
structure Lexer.Between (l : Lexer) (e : ℕ) (xs : List Lexeme) (stack : ℤ)
    (port : List Char) : Prop where
  written : l.Written xs
  stat : l.stat = false
  isfloat : l.isfloat = false
  finished : l.finished = false
  stack : l.stack = stack
  room : l.s + port.length < schemeMaxExprLen + e
  port : l.port = port

/-- The lexer is after the text `w` of a word of type `t`. -/
structure Lexer.Within (l : Lexer) (e : ℕ) (xs : List Lexeme) (t : TokenType)
    (w : List Char) (stack : ℤ)
    (port : List Char) : Prop where
  written : l.Written xs
  token : ∃ j, l.tokens l.i = some ⟨t, some j⟩ ∧ j + w.length = l.s ∧
    ∀ m c, w[m]? = some c → l.scan (j + m) = some c
  nul : '\x00' ∉ w
  stat : l.stat = true
  isfloat : l.isfloat = false
  finished : l.finished = false
  stack : l.stack = stack
  room : l.s + port.length < schemeMaxExprLen + e
  port : l.port = port
  slot : xs.length < lexTokenMax

/-- The lexeme of a word. -/
def Lexeme.word (t : TokenType) (w : List Char) : Lexeme where
  type := t
  obj := match t with
    | .symbol => .symbol w
    | .number => .int (atoi w)
    | _ => .void

/-- Types of words. -/
def TokenType.IsWord (t : TokenType) : Prop := t = .symbol ∨ t = .number ∨ t = .point

/-- A text that is in the buffer, with a NUL behind it. -/
theorem textFrom_eq {b : Buffers} (hw : ∀ m c, w[m]? = some c → b.scan (j + m) = some c)
    (hend : b.scan (j + w.length) = some '\x00') (hnul : '\x00' ∉ w) (hn : w.length < n) :
    textFrom b n j = some w := by
  induction w generalizing n j with
  | nil =>
    obtain ⟨n, rfl⟩ : ∃ k, n = k + 1 := ⟨n - 1, by simp only [List.length_nil] at hn; omega⟩
    have hscan : b.scan j = some '\x00' := hend
    rw [textFrom, hscan, Option.bind_some, if_pos rfl]
  | cons c w ih =>
    simp only [List.length_cons] at hend hn
    obtain ⟨n, rfl⟩ : ∃ k, n = k + 1 := ⟨n - 1, by omega⟩
    have hscan : b.scan j = some c := hw 0 c rfl
    have hc : c ≠ '\x00' := fun h => hnul (h ▸ List.mem_cons_self)
    have hrest : textFrom b n (j + 1) = some w := by
      refine ih (fun m d hd => ?_) ?_ (fun h => hnul (List.mem_cons_of_mem c h)) (by omega)
      · rw [Nat.add_assoc, Nat.add_comm 1 m]
        exact hw (m + 1) d hd
      · rw [Nat.add_assoc, Nat.add_comm 1]
        exact hend
    rw [textFrom, hscan, Option.bind_some, if_neg hc, hrest, Option.map_some]

/-- The text of a word that has been closed. -/
theorem textFrom_closed {scan : ℕ → Option Char} {b : Buffers} {s : ℕ} (hj : j + w.length = s)
    (hw : ∀ m c, w[m]? = some c → scan (j + m) = some c) (hnul : '\x00' ∉ w) (hn : w.length < n)
    (hb : ∀ k < s + 1, b.scan k = Function.update scan s (some '\x00') k) :
    textFrom b n j = some w := by
  refine textFrom_eq (fun m c hm => ?_) ?_ hnul hn
  · have hlt : m < w.length := (List.getElem?_eq_some_iff.mp hm).1
    rw [hb _ (by omega), Function.update_of_ne (by omega)]
    exact hw m c hm
  · rw [hj, hb _ (Nat.lt_succ_self _)]
    exact Function.update_self _ _ _

namespace Lexer.Within

/-- **The end of a word**: the text is closed, and the lexer is between two tokens. -/
theorem run_endWord (h : l.Within e xs t w stack port) (ht : t.IsWord) (he : e ≤ port.length) :
    ∃ l', LexM.endWord.run l = some ((), l') ∧ l'.Written (xs ++ [.word t w]) ∧ l'.stat = false ∧
      l'.isfloat = false ∧ l'.finished = false ∧ l'.stack = stack ∧ l'.port = port ∧
      l'.s = l.s + 1 := by
  obtain ⟨j, htok, hj, hw⟩ := h.token
  have hroom : l.s < schemeMaxExprLen := by have := h.room; omega
  refine ⟨{ l with
    stat := false, scan := Function.update l.scan l.s (some '\x00'), s := l.s + 1,
    i := l.i + 1 }, SchemeOs.run_endWord hroom, ?_, rfl, h.isfloat, h.finished, h.stack, h.port,
    rfl⟩
  refine h.written.push rfl (Nat.le_succ _) (fun k hk => ?_) (fun _ _ => rfl) htok rfl
    fun b hb => ?_
  · exact Function.update_of_ne (Nat.ne_of_lt hk) _ _
  · have htext : tokenText b ⟨t, some j⟩ = some w := textFrom_closed hj hw h.nul (by omega) hb
    rcases ht with rfl | rfl | rfl
    · simp only [tokenToObj, htext, Option.map_some, Lexeme.word]
    · simp only [tokenToObj, htext, Option.map_some, Lexeme.word]
    · rfl

/-- White space ends a word in a list. -/
theorem goes_space (h : l.Within e xs t w stack (' ' :: rest)) (ht : t.IsWord) (hstack : stack ≠ 0)
    (he : e ≤ rest.length) :
    ∃ l', l.Goes l' ∧ l'.Between e (xs ++ [.word t w]) stack rest := by
  have hroom := h.room
  rw [List.length_cons] at hroom
  obtain ⟨l', hrun, hwritten, hstat, hisfloat, hfin, hst, hport, hs⟩ :=
    Within.run_endWord (l := { l with port := rest, isfloat := false })
      ⟨h.written.mono rfl le_rfl (fun _ _ => rfl) fun _ _ => rfl, h.token, h.nul, h.stat, rfl,
        h.finished, h.stack, by dsimp only; omega, rfl, h.slot⟩ ht he
  refine ⟨l', fun l₁ hl₁ => ?_, hwritten, hstat, hisfloat, hfin, hst, by rw [hs]; dsimp only; omega,
    hport⟩
  refine .succ (.run_bind (run_getChar h.port (by decide)) (.ite_neg (by decide) (.succ ?_)))
  refine .ite_pos (by decide) (.run_bind rfl (.ite_pos h.stat ?_))
  refine .run_bind (t := { l with port := rest, isfloat := false }) rfl (.run_bind hrun ?_)
  exact .run_bind (t := l') rfl (.ite_neg (by rw [hst]; exact hstack) hl₁)

end Lexer.Within

/-- White space ends a word outside of lists, and with it the loop. -/
theorem Lexer.Within.ends_space (h : l.Within e xs t w 0 (c :: rest)) (ht : t.IsWord)
    (hc : isspace c) (hEOF : c ≠ EOF) (hnul : c ≠ '\x00') (he : e ≤ rest.length + 1) :
    ∃ l', Ends lexLoop l () l' ∧ l'.Written (xs ++ [.word t w]) ∧ l'.stat = false ∧
      l'.port = rest := by
  have hroom := h.room
  rw [List.length_cons] at hroom
  obtain ⟨l', hrun, hwritten, hstat, -, -, hst, hport, -⟩ :=
    Within.run_endWord (l := { l with port := rest, isfloat := false }) (e := rest.length)
      ⟨h.written.mono rfl le_rfl (fun _ _ => rfl) fun _ _ => rfl, h.token, h.nul, h.stat, rfl,
        h.finished, h.stack, by dsimp only; omega, rfl, h.slot⟩ ht le_rfl
  refine ⟨l', ?_, hwritten, hstat, hport⟩
  refine .succ (.run_bind (run_getChar h.port hnul) (.ite_neg hEOF (.succ ?_)))
  refine .ite_pos hc (.run_bind rfl (.ite_pos h.stat ?_))
  refine .run_bind (t := { l with port := rest, isfloat := false }) rfl (.run_bind hrun ?_)
  exact .run_bind (t := l') rfl (.ite_pos hst .pure)

/-! ## Brackets -/

/-- What `tokenToObj` makes of a token without its text. -/
def TokenType.Stands (t : TokenType) (d : Datum) : Prop :=
  ∀ (b : Buffers) (j : Option ℕ), tokenToObj b ⟨t, j⟩ = some d

/-- A token without a text. -/
theorem Lexer.Written.pushType (h : l.Written xs) (hi : l.i < lexTokenMax) {d : Datum}
    (ht : t.Stands d) : ∃ l', (LexM.pushType t).run l = some ((), l') ∧
      l'.Written (xs ++ [⟨t, d⟩]) ∧ l'.s = l.s ∧ l'.stat = l.stat ∧ l'.isfloat = l.isfloat ∧
      l'.finished = l.finished ∧ l'.stack = l.stack ∧ l'.port = l.port := by
  refine ⟨_, run_pushType hi, ?_, rfl, rfl, rfl, rfl, rfl, rfl⟩
  exact h.push rfl le_rfl (fun _ _ => rfl) (fun k hk => Function.update_of_ne (Nat.ne_of_lt hk) _ _)
    (Function.update_self _ _ _) rfl fun b _ => ht b _

/-- The bracket at `l` closes a list, and `stack` lists are still open. -/
def Lexer.Closes (l : Lexer) (e : ℕ) (xs : List Lexeme) (stack : ℤ) (rest : List Char) : Prop :=
  l.port = ')' :: rest ∧
    ∃ l', (∀ n, (lexSwitch n ')').run { l with port := rest } = some ((), l')) ∧
    l'.finished = decide (stack = 0) ∧
    (l'.finished = false → l'.Between e xs stack rest) ∧ l'.Written xs ∧ l'.stat = false ∧
    l'.port = rest

namespace Lexer.Between

theorem goes_space (h : l.Between e xs stack (c :: rest)) (hc : isspace c) (hEOF : c ≠ EOF)
    (hnul : c ≠ '\x00') :
    ∃ l', l.Goes l' ∧ l'.Between e xs stack rest := by
  have hroom := h.room
  rw [List.length_cons] at hroom
  refine ⟨{ l with port := rest }, fun l₁ hl₁ => ?_, h.written.mono rfl le_rfl (fun _ _ => rfl)
    fun _ _ => rfl, h.stat, h.isfloat, h.finished, h.stack, by dsimp only; omega, rfl⟩
  refine .succ (.run_bind (run_getChar h.port hnul) (.ite_neg hEOF (.succ ?_)))
  refine .ite_pos hc (.run_bind rfl (.ite_neg ?_ hl₁))
  rw [h.stat]
  exact Bool.false_ne_true

theorem withPort (h : l.Between e xs stack (c :: rest)) :
    Lexer.Between { l with port := rest } e xs stack rest where
  written := h.written.mono rfl le_rfl (fun _ _ => rfl) fun _ _ => rfl
  stat := h.stat
  isfloat := h.isfloat
  finished := h.finished
  stack := h.stack
  room := by have := h.room; rw [List.length_cons] at this; dsimp only; omega
  port := rfl

/-- The bracket, after the end of the word before it. -/
theorem closes_of_run (h : l₁.Between e xs stack rest) (hport : l.port = ')' :: rest)
    (hi : xs.length < lexTokenMax)
    (hrun : ∀ n l', StateT.run (do
        LexM.pushType .rightPar
        modify fun l => { l with
          stack := l.stack - 1, finished := l.finished || l.stack - 1 = 0 }) l₁ = some ((), l') →
      (lexSwitch n ')').run { l with port := rest } = some ((), l')) :
    l.Closes e (xs ++ [⟨.rightPar, .void⟩]) (stack - 1) rest := by
  obtain ⟨l', hpush, hwritten, hs, hstat, hisfloat, hfin, hst, hport'⟩ :=
    h.written.pushType (t := .rightPar) (h.written.i ▸ hi) (d := .void) fun _ _ => rfl
  refine ⟨hport, { l' with
    stack := l'.stack - 1, finished := l'.finished || decide (l'.stack - 1 = 0) },
    fun n => hrun n _ ?_, ?_, fun hf => ⟨?_, hstat.trans h.stat, hisfloat.trans h.isfloat, hf, ?_,
      ?_, hport'.trans h.port⟩, ?_, hstat.trans h.stat, hport'.trans h.port⟩
  · change ((LexM.pushType .rightPar).run _).bind _ = _
    rw [hpush]
    rfl
  · dsimp only
    rw [hfin, h.finished, hst, h.stack, Bool.false_or]
  · exact hwritten.mono rfl le_rfl (fun _ _ => rfl) fun _ _ => rfl
  · dsimp only
    rw [hst, h.stack]
  · dsimp only
    rw [hs]
    exact h.room
  · exact hwritten.mono rfl le_rfl (fun _ _ => rfl) fun _ _ => rfl

theorem goes_open (h : l.Between e xs stack ('(' :: rest)) (hi : xs.length < lexTokenMax) :
    ∃ l', l.Goes l' ∧ l'.Between e (xs ++ [⟨.leftPar, .void⟩]) (stack + 1) rest := by
  have hp := h.withPort
  obtain ⟨l', hrun, hwritten, hs, hstat, hisfloat, hfin, hst, hport⟩ :=
    hp.written.pushType (t := .leftPar) (hp.written.i ▸ hi) (d := .void) fun _ _ => rfl
  refine ⟨{ l' with stat := false, stack := l'.stack + 1 }, ?_,
    hwritten.mono rfl le_rfl (fun _ _ => rfl) fun _ _ => rfl, rfl, hisfloat.trans hp.isfloat,
    hfin.trans hp.finished, by dsimp only; rw [hst, hp.stack],
    by dsimp only; rw [hs]; exact hp.room, hport⟩
  refine .of_switch h.port (by decide) (by decide) (by decide) (by decide) (fun n => ?_)
    (hfin.trans hp.finished)
  change ((LexM.pushType .leftPar).run _).bind _ = _
  rw [hrun]
  rfl

theorem closes (h : l.Between e xs stack (')' :: rest)) (hi : xs.length < lexTokenMax) :
    l.Closes e (xs ++ [⟨.rightPar, .void⟩]) (stack - 1) rest := by
  refine h.withPort.closes_of_run h.port hi fun n l' hrun => ?_
  change StateT.run (if l.stat = true then _ else _) _ = _
  rw [if_neg (by rw [h.stat]; exact Bool.false_ne_true)]
  exact hrun

theorem goes_quote (h : l.Between e xs stack ('\'' :: rest)) (hi : xs.length < lexTokenMax) :
    ∃ l', l.Goes l' ∧ l'.Between e (xs ++ [⟨.quote, .void⟩]) stack rest := by
  have hp := h.withPort
  obtain ⟨l', hrun, hwritten, hs, hstat, hisfloat, hfin, hst, hport⟩ :=
    hp.written.pushType (t := .quote) (hp.written.i ▸ hi) (d := .void) fun _ _ => rfl
  exact ⟨l', .of_switch h.port (by decide) (by decide) (by decide) (by decide) (fun _ => hrun)
    (hfin.trans hp.finished), hwritten, hstat.trans hp.stat, hisfloat.trans hp.isfloat,
    hfin.trans hp.finished, hst.trans hp.stack, by rw [hs]; exact hp.room, hport⟩

theorem goes_bool (h : l.Between e xs stack ('#' :: (if b then 't' else 'f') :: rest))
    (hi : xs.length < lexTokenMax) :
    ∃ l', l.Goes l' ∧
      l'.Between e (xs ++ [⟨if b then .true else .false, .bool b⟩]) stack rest := by
  have hp := h.withPort.withPort
  have hstands : TokenType.Stands (if b then .true else .false) (.bool b) := by
    cases b <;> exact fun _ _ => rfl
  obtain ⟨l', hrun, hwritten, hs, hstat, hisfloat, hfin, hst, hport⟩ :=
    hp.written.pushType (hp.written.i ▸ hi) hstands
  refine ⟨l', ?_, hwritten, hstat.trans hp.stat, hisfloat.trans hp.isfloat, hfin.trans hp.finished,
    hst.trans hp.stack, by rw [hs]; exact hp.room, hport⟩
  refine .of_switch h.port (by decide) (by decide) (by decide) (by decide) (fun n => ?_)
    (hfin.trans hp.finished)
  change StateT.run (if l.stat = true then _ else _) _ = _
  rw [if_neg (by rw [h.stat]; exact Bool.false_ne_true)]
  have hc : (if b then 't' else 'f') ≠ '\x00' := by cases b <;> decide
  unfold lexSharp
  rw [StateT.run_bind, run_getChar rfl hc]
  cases b <;> exact hrun

end Lexer.Between

namespace Lexer.Within

theorem withPort (h : l.Within e xs t w stack (c :: rest)) :
    Lexer.Within { l with port := rest } e xs t w stack rest where
  written := h.written.mono rfl le_rfl (fun _ _ => rfl) fun _ _ => rfl
  token := h.token
  nul := h.nul
  stat := h.stat
  isfloat := h.isfloat
  finished := h.finished
  stack := h.stack
  room := by have := h.room; rw [List.length_cons] at this; dsimp only; omega
  port := rfl
  slot := h.slot

theorem closes (h : l.Within e xs t w stack (')' :: rest)) (ht : t.IsWord)
    (hi : xs.length + 1 < lexTokenMax) (he : e ≤ rest.length) :
    l.Closes e (xs ++ [.word t w] ++ [⟨.rightPar, .void⟩]) (stack - 1) rest := by
  have hroom := h.room
  rw [List.length_cons] at hroom
  obtain ⟨k, hend, hwritten, hstat, hisfloat, hfin, hst, hport, hs⟩ := h.withPort.run_endWord ht he
  have hk : k.Between e (xs ++ [.word t w]) stack rest :=
    ⟨hwritten, hstat, hisfloat, hfin, hst, by dsimp only at hs; omega, hport⟩
  refine hk.closes_of_run h.port (by simpa using hi) fun n l' hrun => ?_
  change StateT.run (if l.stat = true then _ else _) _ = _
  rw [if_pos h.stat]
  change (LexM.endWord.run _).bind _ = _
  rw [hend]
  exact hrun

end Lexer.Within

namespace Lexer.Closes

theorem goes (h : l.Closes e xs stack rest) (hstack : stack ≠ 0) :
    ∃ l', l.Goes l' ∧ l'.Between e xs stack rest := by
  obtain ⟨hport, l', hrun, hfin, hbetween, -⟩ := h
  rw [decide_eq_false hstack] at hfin
  exact ⟨l', .of_switch hport (by decide) (by decide) (by decide) (by decide) hrun hfin,
    hbetween hfin⟩

theorem ends (h : l.Closes e xs 0 rest) :
    ∃ l', Ends lexLoop l () l' ∧ l'.Written xs ∧ l'.stat = false ∧ l'.port = rest := by
  obtain ⟨hport, l', hrun, hfin, -, hwritten, hstat, hrest⟩ := h
  refine ⟨l', ?_, hwritten, hstat, hrest⟩
  exact ends_of_switch hport (by decide) (by decide) (by decide) (by decide) hrun
    (.ite_pos hfin .pure)

end Lexer.Closes

/-! ## Words

A word is begun by its first character, and its type is set again by later ones. -/

/-- The type of the token of a word. -/
def wordType (w : List Char) : TokenType := if w.all isdigit then .number else .symbol

theorem wordType_isWord : (wordType w).IsWord := by
  unfold wordType
  split_ifs
  · exact .inr (.inl rfl)
  · exact .inl rfl

/-- A character of a name goes on with a word, or begins one. -/
theorem lexSwitch_eq_lexWord (hc : NameChar c) : lexSwitch n c = lexWord c := by
  have hmem := hc.notMem
  simp only [List.mem_cons, List.not_mem_nil, or_false, not_or] at hmem
  unfold lexSwitch
  split <;> simp_all

/-- A word in the buffer, with one character more behind it. -/
theorem scan_concat {scan : ℕ → Option Char} {w : List Char} {j s : ℕ} {c : Char}
    (hj : j + w.length = s) (hw : ∀ m d, w[m]? = some d → scan (j + m) = some d) (m : ℕ) (d : Char)
    (hd : (w ++ [c])[m]? = some d) : Function.update scan s (some c) (j + m) = some d := by
  rcases Nat.lt_trichotomy m w.length with hm | rfl | hm
  · rw [List.getElem?_append_left hm] at hd
    rw [Function.update_of_ne (by omega)]
    exact hw m d hd
  · rw [List.getElem?_concat_length] at hd
    rw [hj, Function.update_self, hd]
  · rw [List.getElem?_eq_none (by simpa using Nat.succ_le_of_lt hm)] at hd
    cases hd

namespace Lexer.Within

/-- The next character of the word. -/
theorem put (h : l.Within e xs t w stack (c :: rest)) (hc : c ≠ '\x00') :
    Lexer.Within { l with
      port := rest, scan := Function.update l.scan l.s (some c), s := l.s + 1 }
      e xs t (w ++ [c]) stack rest where
  written := h.written.mono rfl (Nat.le_succ _)
    (fun _ hk => Function.update_of_ne (Nat.ne_of_lt hk) _ _) fun _ _ => rfl
  token := by
    obtain ⟨j, htok, hj, hw⟩ := h.token
    exact ⟨j, htok, by rw [List.length_append, List.length_singleton, ← hj]; rfl,
      scan_concat hj hw⟩
  nul := by
    rw [List.mem_append, List.mem_singleton, not_or]
    exact ⟨h.nul, hc.symm⟩
  stat := h.stat
  isfloat := h.isfloat
  finished := h.finished
  stack := h.stack
  room := by have := h.room; rw [List.length_cons] at this; dsimp only; omega
  port := rfl
  slot := h.slot

/-- The word gets another type. -/
theorem retype (h : l.Within e xs t w stack port) (t' : TokenType) :
    Lexer.Within { l with
      tokens := Function.update l.tokens l.i (some ⟨t', (l.tokens l.i).bind Token.token⟩) }
      e xs t' w stack port where
  written := h.written.mono rfl le_rfl (fun _ _ => rfl)
    fun _ hk => Function.update_of_ne (Nat.ne_of_lt hk) _ _
  token := by
    obtain ⟨j, htok, hj, hw⟩ := h.token
    refine ⟨j, ?_, hj, hw⟩
    dsimp only
    rw [Function.update_self, htok]
    rfl
  nul := h.nul
  stat := h.stat
  isfloat := h.isfloat
  finished := h.finished
  stack := h.stack
  room := h.room
  port := h.port
  slot := h.slot

theorem run_tokenType (h : l.Within e xs t w stack port) : LexM.tokenType.run l = some (t, l) := by
  obtain ⟨j, htok, -⟩ := h.token
  simp only [StateT.run, LexM.tokenType, htok, Option.map_some]

/-- A character goes on with the word. -/
theorem goes_char (h : l.Within e xs (wordType w) w stack (c :: rest)) (hc : NameChar c)
    (he : e ≤ rest.length) :
    ∃ l', l.Goes l' ∧ l'.Within e xs (wordType (w ++ [c])) (w ++ [c]) stack rest := by
  have hroom : l.s < schemeMaxExprLen := by
    have := h.room
    rw [List.length_cons] at this
    omega
  have hi : l.i < lexTokenMax := h.written.i ▸ h.slot
  have hgoes : ∀ l', (lexWord c).run { l with port := rest } = some ((), l') →
      l'.finished = false → l.Goes l' := fun l' hrun hfin =>
    .of_switch h.port hc.ne_nul (ne_EOF_of_le hc.le) hc.isspace
      (fun heq => hc.notMem (by rw [heq]; decide))
      (fun n => by rw [lexSwitch_eq_lexWord hc]; exact hrun) hfin
  have htype := h.withPort.run_tokenType
  by_cases hd : isdigit c
  · -- a digit keeps the type
    have heq : wordType (w ++ [c]) = wordType w := by
      simp only [wordType, List.all_append, List.all_cons, hd, List.all_nil, Bool.and_true]
    have hput := h.put hc.ne_nul
    rw [← heq] at hput
    refine ⟨_, hgoes _ ?_ hput.finished, hput⟩
    unfold lexWord
    rw [if_pos hd]
    change StateT.run (if l.stat = false then _ else _) _ = _
    rw [if_neg (by rw [h.stat]; decide), StateT.run_bind, htype]
    change StateT.run (if wordType w = .point then _ else _) _ = _
    rw [if_neg (by unfold wordType; split_ifs <;> decide)]
    exact run_putChar (l := { l with port := rest }) hroom
  · have heq : wordType (w ++ [c]) = .symbol := by
      simp only [wordType, List.all_append, List.all_cons, hd, List.all_nil, Bool.and_true,
        Bool.and_false, if_neg Bool.false_ne_true]
    rw [heq]
    by_cases hw : wordType w = .number
    · -- the word is no number any more
      have hput := (h.retype .symbol).put hc.ne_nul
      refine ⟨_, hgoes _ ?_ hput.finished, hput⟩
      unfold lexWord
      rw [if_neg hd, if_pos hc.isprint]
      change StateT.run (if l.stat = false then _ else _) _ = _
      rw [if_neg (by rw [h.stat]; decide), StateT.run_bind, htype]
      change StateT.run (if wordType w = .number then _ else _) _ = _
      rw [if_pos hw]
      change (StateT.run (LexM.setType .symbol) _).bind _ = _
      rw [run_setType (l := { l with port := rest }) hi]
      exact run_putChar (l := Lexer.mk _ rest _ _ _ _ _ _) hroom
    · have hsymbol : wordType w = .symbol := by
        unfold wordType at hw ⊢
        split_ifs at hw ⊢
        · exact absurd rfl hw
        · rfl
      have hput := h.put hc.ne_nul
      rw [hsymbol] at hput
      refine ⟨_, hgoes _ ?_ hput.finished, hput⟩
      unfold lexWord
      rw [if_neg hd, if_pos hc.isprint]
      change StateT.run (if l.stat = false then _ else _) _ = _
      rw [if_neg (by rw [h.stat]; decide), StateT.run_bind, htype]
      change StateT.run (if wordType w = .number then _ else _) _ = _
      rw [if_neg hw]
      exact run_putChar (l := { l with port := rest }) hroom

/-- **The rest of a word**. -/
theorem goes_word {u : List Char} (h : l.Within e xs (wordType w) w stack (u ++ rest))
    (hu : ∀ c ∈ u, NameChar c) (he : e ≤ rest.length) :
    ∃ l', l.Goes l' ∧ l'.Within e xs (wordType (w ++ u)) (w ++ u) stack rest := by
  induction u generalizing l w with
  | nil => exact ⟨l, fun _ h => h, by rw [List.append_nil]; exact h⟩
  | cons c u ih =>
    rw [List.cons_append] at h
    obtain ⟨l', hgoes, h'⟩ := h.goes_char (hu c List.mem_cons_self)
      (by rw [List.length_append]; omega)
    obtain ⟨l₁, hgoes₁, h₁⟩ := ih h' fun d hd => hu d (List.mem_cons_of_mem c hd)
    rw [List.append_assoc] at h₁
    exact ⟨l₁, hgoes.trans hgoes₁, h₁⟩

end Lexer.Within

namespace Lexer.Between

/-- The lexer in a word that has no character yet. -/
theorem begin (h : l.Between e xs stack port) (hi : xs.length < lexTokenMax) :
    Lexer.Within { l with
      tokens := Function.update l.tokens l.i (some ⟨t, some l.s⟩), stat := true }
      e xs t [] stack port where
  written := h.written.mono rfl le_rfl (fun _ _ => rfl)
    fun _ hk => Function.update_of_ne (Nat.ne_of_lt hk) _ _
  token := ⟨l.s, Function.update_self _ _ _, rfl, nofun⟩
  nul := List.not_mem_nil
  stat := rfl
  isfloat := h.isfloat
  finished := h.finished
  stack := h.stack
  room := h.room
  port := h.port
  slot := hi

/-- **A word**. -/
theorem goes_word (h : l.Between e xs stack (w ++ rest)) (hi : xs.length < lexTokenMax)
    (hne : w ≠ []) (hw : ∀ c ∈ w, NameChar c) (he : e ≤ rest.length) :
    ∃ l', l.Goes l' ∧ l'.Within e xs (wordType w) w stack rest := by
  obtain ⟨c, u, rfl⟩ := List.exists_cons_of_ne_nil hne
  rw [List.cons_append] at h
  have hc : NameChar c := hw c List.mem_cons_self
  have hroom : l.s < schemeMaxExprLen := by
    have := h.room
    rw [List.length_cons, List.length_append] at this
    omega
  have hput := (h.begin (t := wordType [c]) hi).put hc.ne_nul
  obtain ⟨l', hgoes, h'⟩ := hput.goes_word (fun d hd => hw d (List.mem_cons_of_mem c hd)) he
  refine ⟨l', .trans ?_ hgoes, h'⟩
  refine .of_switch h.port hc.ne_nul (ne_EOF_of_le hc.le) hc.isspace
    (fun heq => hc.notMem (by rw [heq]; decide)) (fun n => ?_) h.finished
  rw [lexSwitch_eq_lexWord hc]
  have hrun : (LexM.beginWord (wordType [c])).run { l with port := u ++ rest } = _ :=
    run_beginWord (h.written.i ▸ hi)
  unfold lexWord
  by_cases hd : isdigit c
  · have htype : wordType [c] = .number := by simp only [wordType, List.all_cons, hd]; rfl
    rw [htype] at hrun ⊢
    rw [if_pos hd]
    change StateT.run (if l.stat = false then _ else _) _ = _
    rw [if_pos h.stat]
    change (StateT.run (LexM.beginWord .number) _).bind _ = _
    rw [hrun]
    exact run_putChar (l := Lexer.mk _ _ _ _ _ _ _ _) hroom
  · have htype : wordType [c] = .symbol := by simp only [wordType, List.all_cons, hd]; rfl
    rw [htype] at hrun ⊢
    rw [if_neg hd, if_pos hc.isprint]
    change StateT.run (if l.stat = false then _ else _) _ = _
    rw [if_pos h.stat]
    change (StateT.run (LexM.beginWord .symbol) _).bind _ = _
    rw [hrun]
    exact run_putChar (l := Lexer.mk _ _ _ _ _ _ _ _) hroom

theorem goes_point (h : l.Between e xs stack ('.' :: rest)) (hi : xs.length < lexTokenMax)
    (he : e ≤ rest.length) :
    ∃ l', l.Goes l' ∧ l'.Within e xs .point ['.'] stack rest := by
  have hroom : l.s < schemeMaxExprLen := by
    have := h.room
    rw [List.length_cons] at this
    omega
  have hput := (h.begin (t := .point) hi).put (by decide)
  refine ⟨_, .of_switch h.port (by decide) (by decide) (by decide) (by decide) (fun n => ?_)
    hput.finished, hput⟩
  change StateT.run (if l.stat = false then _ else _) _ = _
  rw [if_pos h.stat]
  change (StateT.run (LexM.beginWord .point) _).bind _ = _
  rw [run_beginWord (l := { l with port := rest }) (h.written.i ▸ hi)]
  exact run_putChar (l := Lexer.mk _ _ _ _ _ _ _ _) hroom

end Lexer.Between

/-! ## The whole text -/

/-- The marker behind the tokens. -/
theorem Lexer.Written.setTag (h : l.Written xs) (hi : xs.length < lexTokenMax) :
    ∃ l', (LexM.setType .tagEnd).run l = some ((), l') ∧ l'.toBuffers.Holds 0 xs ∧
      l'.port = l.port := by
  refine ⟨_, run_setType (h.i ▸ hi), ?_, rfl⟩
  refine Lexer.Written.holds (l := Lexer.mk _ _ l.i _ _ _ _ _) ?_ ?_
  · exact h.mono rfl le_rfl (fun _ _ => rfl) fun _ hk => Function.update_of_ne (Nat.ne_of_lt hk) _ _
  · exact ⟨_, Function.update_self _ _ _, rfl⟩

/-- The loop has come to an end between two tokens. -/
theorem ends_lexTokens (h : Ends lexLoop l () l') (hl' : l'.Written xs) (hstat : l'.stat = false)
    (hi : xs.length < lexTokenMax) :
    ∃ l₁, Ends lexTokens l () l₁ ∧ l₁.toBuffers.Holds 0 xs ∧ l₁.port = l'.port := by
  obtain ⟨l₁, hrun, hholds, hport⟩ := hl'.setTag hi
  refine ⟨l₁, h.bind (.run_bind (t := l') rfl ?_), hholds, hport⟩
  exact .ite_neg (by rw [hstat]; exact Bool.false_ne_true) (.of_run hrun)

/-- The loop ends at the end of the text, and has passed over the NUL. -/
theorem ends_of_atEnd (hport : AtEnd l.port) :
    Ends lexLoop l () { l with port := l.port.tail } := by
  refine .succ (.run_bind (t := { l with port := l.port.tail }) ?_ (.ite_pos rfl .pure))
  simp only [StateT.run, LexM.getChar,
    schemePortGetChar_of_head? fun c hc => Or.inl (hport c hc)]

theorem ends_of_nil (hport : l.port = []) : Ends lexLoop l () l := by
  have hends := ends_of_atEnd (l := l) (hport ▸ AtEnd.nil)
  have heq : { l with port := l.port.tail } = l := by rw [hport, List.tail_nil, ← hport]
  rwa [heq] at hends

/-- The text ends within a word: the marker comes to the token after it. -/
theorem ends_lexTokens_word {k l₁ : Lexer} (hloop : Ends lexLoop l () l') (hstat : l'.stat = true)
    (hroom : l'.s < schemeMaxExprLen) (hlen : l'.i + 1 < lexTokenMax)
    (hend : LexM.endWord.run l' = some ((), k))
    (hrun : (LexM.setType .tagEnd).run k = some ((), l₁)) :
    ∃ l₂, Ends lexTokens l () l₂ ∧ l₂.toBuffers = l₁.toBuffers ∧ l₂.port = l'.port := by
  rw [run_endWord hroom, Option.some.injEq, Prod.mk.injEq] at hend
  obtain ⟨-, rfl⟩ := hend
  rw [run_setType hlen, Option.some.injEq, Prod.mk.injEq] at hrun
  obtain ⟨-, rfl⟩ := hrun
  -- the tokens are those of a word that is closed, but for `s`
  have hlast := run_setType (l := { l' with
    scan := Function.update l'.scan l'.s (some '\x00'), i := l'.i + 1 }) (t := .tagEnd) hlen
  have hmark : Ends (fun _ => do
      LexM.store l'.s '\x00'
      LexM.nextToken
      LexM.setType .tagEnd) l' () _ :=
    .run_bind (run_store hroom) (.run_bind rfl (.of_run hlast))
  exact ⟨_, hloop.bind (.run_bind (t := l') rfl (.ite_pos hstat (.run_bind (t := l') rfl hmark))),
    rfl, rfl⟩

/-- The text ends within a word. -/
theorem Lexer.Within.ends (h : l'.Within e xs t w stack rest) (hrest : AtEnd rest)
    (he : e ≤ rest.length) (hgoes : l.Goes l') (ht : t.IsWord)
    (hi : xs.length + 1 < lexTokenMax) :
    ∃ l₁, Ends lexTokens l () l₁ ∧ l₁.toBuffers.Holds 0 (xs ++ [.word t w]) ∧
      l₁.port = rest.tail := by
  have hroom : l'.s < schemeMaxExprLen := by
    have := h.room
    omega
  have hloop : Ends lexLoop l () { l' with port := rest.tail } := by
    have hends := ends_of_atEnd (l := l') (h.port.symm ▸ hrest)
    rw [h.port] at hends
    exact hgoes _ hends
  obtain ⟨k, hend, hwritten, -⟩ :=
    Within.run_endWord (l := { l' with port := rest.tail }) (e := rest.tail.length)
      ⟨h.written.mono rfl le_rfl (fun _ _ => rfl) fun _ _ => rfl, h.token, h.nul, h.stat,
        h.isfloat, h.finished, h.stack, by dsimp only; omega, rfl, h.slot⟩ ht le_rfl
  obtain ⟨l₁, hrun, hholds, -⟩ := hwritten.setTag (by simpa using hi)
  obtain ⟨l₂, hends, hbuffers, hport⟩ :=
    ends_lexTokens_word hloop h.stat hroom (h.written.i ▸ hi) hend hrun
  exact ⟨l₂, hends, hbuffers ▸ hholds, hport⟩

end SchemeOs
