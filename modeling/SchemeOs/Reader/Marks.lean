import SchemeOs.Reader.Spelling

/-!
# Reader/Marks — what stands between words

White space, brackets, marks, strings and characters, each after a word or between two tokens.  The
loops over strings and characters take their characters in pairs, and end somewhere in the text.
-/

namespace SchemeOs

open LexM

variable {l l' l₁ : Lexer} {xs : List Spelled} {stack : ℤ} {rest w port : List Char} {c : Char}
  {t : TokenType} {e n : ℕ} {stat f : Bool}

/-! ## White space and marks -/

/-- One turn of the loop whose `switch` needs fuel. -/
theorem Lexer.Goes.of_ends (hport : l.port = c :: rest) (hnul : c ≠ '\x00') (hEOF : c ≠ EOF)
    (hspace : isspace c = false) (hcomma : c ≠ ',')
    (hrun : Ends (fun n => lexSwitch n c) { l with port := rest } () l')
    (hfin : l'.finished = false) : l.Goes l' := by
  refine fun l₁ h => .succ (.run_bind (run_getChar hport hnul) (.ite_neg hEOF (.succ ?_)))
  refine .congr (f := fun n => do
    lexSwitch n c
    if (← get).finished then return () else lexLoop n) (fun n => ?_) ?_
  · rw [nextLoop, hspace, if_neg Bool.false_ne_true, if_neg hcomma]
  · exact hrun.bind (.run_bind (t := l') rfl (.ite_neg (by rw [hfin]; exact Bool.false_ne_true) h))

/-- White space ends a word in a list. -/
theorem Lexer.InWord.goes_space (h : l.InWord e xs t w f stack (c :: rest)) (hc : Delimited [c])
    (hstack : stack ≠ 0) (he : e ≤ rest.length) :
    ∃ l', l.Goes l' ∧ l'.Has e (xs ++ [⟨t, some w⟩]) false false stack rest := by
  obtain ⟨hspace, hEOF, hnul⟩ := hc c rfl
  have hroom := h.room
  rw [List.length_cons] at hroom
  obtain ⟨l', hrun, hs, h'⟩ := (h.withPort.setFloat false).run_endWord he
  refine ⟨l', fun l₁ hl₁ => ?_, { h' with room := by rw [hs]; dsimp only; omega }⟩
  refine .succ (.run_bind (run_getChar h.port hnul) (.ite_neg hEOF (.succ ?_)))
  refine .ite_pos hspace (.run_bind rfl (.ite_pos h.stat ?_))
  refine .run_bind (t := { l with port := rest, isfloat := false }) rfl (.run_bind hrun ?_)
  exact .run_bind (t := l') rfl (.ite_neg (by rw [h'.stack]; exact hstack) hl₁)

/-- White space ends a word outside of lists, and with it the loop. -/
theorem Lexer.InWord.ends_space (h : l.InWord e xs t w f 0 (c :: rest)) (hc : Delimited [c])
    (he : e ≤ rest.length) :
    ∃ l', Ends lexLoop l () l' ∧ l'.Wrote (xs ++ [⟨t, some w⟩]) ∧ l'.stat = false ∧
      l'.port = rest := by
  obtain ⟨hspace, hEOF, hnul⟩ := hc c rfl
  obtain ⟨l', hrun, -, h'⟩ := (h.withPort.setFloat false).run_endWord he
  refine ⟨l', ?_, h'.wrote, h'.stat, h'.port⟩
  refine .succ (.run_bind (run_getChar h.port hnul) (.ite_neg hEOF (.succ ?_)))
  refine .ite_pos hspace (.run_bind rfl (.ite_pos h.stat ?_))
  refine .run_bind (t := { l with port := rest, isfloat := false }) rfl (.run_bind hrun ?_)
  exact .run_bind (t := l') rfl (.ite_pos h'.stack .pure)

/-- A mark of one character. -/
structure MarkOf (c : Char) (t : TokenType) : Prop where
  lexSwitch : ∀ n, SchemeOs.lexSwitch n c = LexM.pushType t
  ne_nul : c ≠ '\x00'
  ne_EOF : c ≠ EOF
  isspace : isspace c = false
  ne_comma : c ≠ ','

theorem markOf_quote : MarkOf '\'' .quote :=
  ⟨fun _ => rfl, by decide, by decide, by decide, by decide⟩

theorem markOf_backquote : MarkOf '`' .backquote :=
  ⟨fun _ => rfl, by decide, by decide, by decide, by decide⟩

/-- The token of a `#` and the character after it. -/
def sharpType : Char → Option TokenType
  | 't' => some .true
  | 'f' => some .false
  | 'b' => some .number2
  | 'o' => some .number8
  | 'd' => some .number10
  | 'x' => some .number16
  | 'i' => some .inexact
  | 'e' => some .exact
  | _ => none

namespace Lexer.Has

theorem goes_space (h : l.Has e xs false f stack (c :: rest)) (hc : Delimited [c]) :
    ∃ l', l.Goes l' ∧ l'.Has e xs false f stack rest :=
  ⟨_, .delimiter h.port h.stat hc, h.withPort⟩

/-- A mark is a token of its own. -/
theorem goes_mark (h : l.Has e xs false f stack (c :: rest)) (hc : MarkOf c t)
    (hi : xs.length < lexTokenMax) :
    ∃ l', l.Goes l' ∧ l'.Has e (xs ++ [⟨t, none⟩]) false f stack rest := by
  refine ⟨_, .of_switch h.port hc.ne_nul hc.ne_EOF hc.isspace hc.ne_comma (fun n => ?_) ?_,
    h.withPort.push t (j := (l.tokens l.i).bind Token.token)⟩
  · rw [hc.lexSwitch]
    exact run_pushType (l := { l with port := rest }) (h.wrote.i ▸ hi)
  · exact h.finished

/-- An opening bracket is one list more. -/
theorem goes_open (h : l.Has e xs false f stack ('(' :: rest)) (hi : xs.length < lexTokenMax) :
    ∃ l', l.Goes l' ∧ l'.Has e (xs ++ [⟨.leftPar, none⟩]) false f (stack + 1) rest := by
  have hp := h.withPort.push .leftPar (j := (l.tokens l.i).bind Token.token)
  refine ⟨{ l with
    port := rest, i := l.i + 1, stat := false, stack := l.stack + 1, tokens :=
      Function.update l.tokens l.i (some ⟨.leftPar, (l.tokens l.i).bind Token.token⟩) }, ?_,
    hp.wrote.mono rfl le_rfl (fun _ _ => rfl) fun _ _ => rfl, rfl, hp.isfloat, hp.finished,
    congrArg (· + 1) hp.stack, hp.room, rfl⟩
  refine .of_switch h.port (by decide) (by decide) (by decide) (by decide) (fun n => ?_) h.finished
  change ((LexM.pushType .leftPar).run _).bind _ = _
  rw [run_pushType (l := { l with port := rest }) (h.wrote.i ▸ hi)]
  rfl

/-- The `switch` on a `#` outside of words. -/
theorem goes_of_sharp (h : l.Has e xs false f stack ('#' :: c :: rest))
    (hrun : ∀ n, (lexSwitch n '#').run { l with port := c :: rest } = some ((), l'))
    (hfin : l'.finished = false) : l.Goes l' :=
  .of_switch h.port (by decide) (by decide) (by decide) (by decide) hrun hfin

/-- A `#` that is not in a word looks at the character behind it. -/
theorem run_sharp (h : l.Has e xs false f stack ('#' :: c :: rest)) (hc : c ≠ '\x00') :
    (lexSwitch n '#').run { l with port := c :: rest } = (do
      match c with
      | '(' => do
        LexM.pushType .leftSharpar
        modify fun l => { l with stack := l.stack + 1 }
      | 't' => LexM.pushType .true
      | 'f' => LexM.pushType .false
      | '\\' => do
        LexM.setType .char
        LexM.setToken
        LexM.nextToken
        lexChar n
        LexM.putChar '\x00'
      | 'b' => LexM.pushType .number2
      | 'o' => LexM.pushType .number8
      | 'd' => LexM.pushType .number10
      | 'x' => LexM.pushType .number16
      | 'i' => LexM.pushType .inexact
      | 'e' => LexM.pushType .exact
      | _ => return () : LexM Unit).run { l with port := rest } := by
  change StateT.run (if l.stat = true then _ else _) _ = _
  rw [if_neg (by rw [h.stat]; exact Bool.false_ne_true)]
  unfold lexSharp
  rw [StateT.run_bind, run_getChar rfl hc]
  rfl

theorem goes_sharp (h : l.Has e xs false f stack ('#' :: c :: rest)) (hc : sharpType c = some t)
    (hi : xs.length < lexTokenMax) :
    ∃ l', l.Goes l' ∧ l'.Has e (xs ++ [⟨t, none⟩]) false f stack rest := by
  have hnul : c ≠ '\x00' := by
    rintro rfl
    exact nomatch hc
  have hp := h.withPort.withPort.push t (j := (l.tokens l.i).bind Token.token)
  refine ⟨_, h.goes_of_sharp (fun n => ?_) hp.finished, hp⟩
  rw [h.run_sharp hnul]
  have hpush := run_pushType (l := { l with port := rest }) (t := t) (h.wrote.i ▸ hi)
  unfold sharpType at hc
  split at hc <;> cases hc <;> exact hpush

/-- `#(` opens a vector. -/
theorem goes_vector (h : l.Has e xs false f stack ('#' :: '(' :: rest))
    (hi : xs.length < lexTokenMax) :
    ∃ l', l.Goes l' ∧ l'.Has e (xs ++ [⟨.leftSharpar, none⟩]) false f (stack + 1) rest := by
  have hp := h.withPort.withPort.push .leftSharpar (j := (l.tokens l.i).bind Token.token)
  refine ⟨{ l with
    port := rest, i := l.i + 1, stack := l.stack + 1, tokens :=
      Function.update l.tokens l.i (some ⟨.leftSharpar, (l.tokens l.i).bind Token.token⟩) }, ?_,
    hp.wrote.mono rfl le_rfl (fun _ _ => rfl) fun _ _ => rfl, hp.stat, hp.isfloat, hp.finished,
    congrArg (· + 1) hp.stack, hp.room, rfl⟩
  refine h.goes_of_sharp (fun n => ?_) h.finished
  rw [h.run_sharp (by decide)]
  change ((LexM.pushType .leftSharpar).run _).bind _ = _
  rw [run_pushType (l := { l with port := rest }) (h.wrote.i ▸ hi)]
  rfl

/-- A comma with `@` behind it is one token. -/
theorem goes_commaAt (h : l.Has e xs false f stack (',' :: '@' :: rest))
    (hi : xs.length < lexTokenMax) :
    ∃ l', l.Goes l' ∧ l'.Has e (xs ++ [⟨.commaAt, none⟩]) false f stack rest := by
  refine ⟨_, fun l₁ hl₁ => ?_, h.withPort.withPort.push .commaAt
    (j := (l.tokens l.i).bind Token.token)⟩
  refine .succ (.run_bind (run_getChar h.port (by decide)) (.ite_neg (by decide) (.succ ?_)))
  refine .ite_neg (by decide) (.ite_pos rfl (.run_bind (run_getChar rfl (by decide)) ?_))
  refine .ite_pos rfl (.run_bind (run_pushType (l := { l with port := rest }) (h.wrote.i ▸ hi)) ?_)
  refine .run_bind rfl (.ite_neg ?_ hl₁)
  exact ne_true_of_eq_false h.finished

/-- A comma does not let go of the character after it. -/
theorem goes_comma (h : l.Has e xs false f stack (',' :: c :: rest)) (hc : c ≠ '\x00')
    (hEOF : c ≠ EOF) (hat : c ≠ '@') (hi : xs.length < lexTokenMax) :
    ∃ l', l.Goes l' ∧ l'.Has e (xs ++ [⟨.comma, none⟩]) false f stack (c :: rest) := by
  refine ⟨_, fun l₁ hl₁ => ?_, h.withPort.push .comma
    (j := (l.tokens l.i).bind Token.token)⟩
  obtain ⟨N, hN⟩ := hl₁
  refine .succ (.run_bind (run_getChar h.port (by decide)) (.ite_neg (by decide) (.succ ?_)))
  refine .ite_neg (by decide) (.ite_pos rfl (.run_bind (run_getChar rfl hc) (.ite_neg hat ?_)))
  refine .run_bind (run_pushType (l := { l with port := rest }) (h.wrote.i ▸ hi)) ?_
  refine ⟨N, fun n hn => ?_⟩
  rw [← hN (n + 1) (hn.trans n.le_succ), lexLoop, StateT.run_bind, run_getChar rfl hc]
  change _ = StateT.run (if c = EOF then _ else _) _
  rw [if_neg hEOF]

end Lexer.Has

/-! ## Closing brackets -/

/-- The bracket at `l` closes a list: the loop goes on where some list is still open. -/
structure Lexer.Shuts (l : Lexer) (e : ℕ) (xs : List Spelled) (f : Bool) (stack : ℤ)
    (rest : List Char) : Prop where
  goes : stack ≠ 0 → ∃ l', l.Goes l' ∧ l'.Has e xs false f stack rest
  ends : stack = 0 → ∃ l', Ends lexLoop l () l' ∧ l'.Wrote xs ∧ l'.stat = false ∧ l'.port = rest

/-- The bracket, after the end of the word before it. -/
theorem Lexer.Has.shuts_of_run (h : l₁.Has e xs false f stack rest) (hport : l.port = ')' :: rest)
    (hi : xs.length < lexTokenMax)
    (hrun : ∀ n, (lexSwitch n ')').run { l with port := rest } = StateT.run (do
      LexM.pushType .rightPar
      modify fun l => { l with
        stack := l.stack - 1, finished := l.finished || l.stack - 1 = 0 }) l₁) :
    l.Shuts e (xs ++ [⟨.rightPar, none⟩]) f (stack - 1) rest := by
  have hp := h.push .rightPar (j := (l₁.tokens l₁.i).bind Token.token)
  have hlast : ∀ n, (lexSwitch n ')').run { l with port := rest } = some ((), { l₁ with
      tokens := Function.update l₁.tokens l₁.i
        (some ⟨.rightPar, (l₁.tokens l₁.i).bind Token.token⟩),
      i := l₁.i + 1, stack := l₁.stack - 1, finished := decide (stack - 1 = 0) }) := by
    intro n
    rw [hrun n]
    change ((LexM.pushType .rightPar).run _).bind _ = _
    rw [run_pushType (h.wrote.i ▸ hi), ← h.stack]
    simp only [Option.bind_some, h.finished]
    rfl
  constructor
  · intro hstack
    rw [decide_eq_false hstack] at hlast
    refine ⟨_, .of_switch hport (by decide) (by decide) (by decide) (by decide) hlast rfl, ?_⟩
    exact ⟨hp.wrote.mono rfl le_rfl (fun _ _ => rfl) fun _ _ => rfl, hp.stat, hp.isfloat, rfl,
      congrArg (· - 1) hp.stack, hp.room, hp.port⟩
  · intro hstack
    rw [decide_eq_true hstack] at hlast
    refine ⟨_, ends_of_switch hport (by decide) (by decide) (by decide) (by decide) hlast
      (.ite_pos rfl .pure), ?_, hp.stat, hp.port⟩
    exact hp.wrote.mono rfl le_rfl (fun _ _ => rfl) fun _ _ => rfl

/-- A closing bracket ends a list, and at the outermost one the call. -/
theorem Lexer.Has.shuts (h : l.Has e xs false f stack (')' :: rest))
    (hi : xs.length < lexTokenMax) : l.Shuts e (xs ++ [⟨.rightPar, none⟩]) f (stack - 1) rest := by
  refine h.withPort.shuts_of_run h.port hi fun n => ?_
  change StateT.run (if l.stat = true then _ else _) _ = _
  rw [if_neg (by rw [h.stat]; exact Bool.false_ne_true)]

/-- A bracket or a string after a word ends the word first. -/
theorem Lexer.InWord.endsWord (h : l.InWord e xs t w f stack (c :: rest)) (he : e ≤ rest.length) :
    ∃ l', LexM.endWord.run { l with port := rest } = some ((), l') ∧
      l'.Has e (xs ++ [⟨t, some w⟩]) false f stack rest := by
  have hroom := h.room
  rw [List.length_cons] at hroom
  obtain ⟨l', hrun, hs, h'⟩ := h.withPort.run_endWord he
  exact ⟨l', hrun, { h' with room := by rw [hs]; dsimp only; omega }⟩

/-- A closing bracket ends the word before it, too. -/
theorem Lexer.InWord.shuts (h : l.InWord e xs t w f stack (')' :: rest))
    (hi : xs.length + 1 < lexTokenMax) (he : e ≤ rest.length) :
    l.Shuts e (xs ++ [⟨t, some w⟩] ++ [⟨.rightPar, none⟩]) f (stack - 1) rest := by
  obtain ⟨l', hrun, h'⟩ := h.endsWord he
  refine h'.shuts_of_run h.port (by simpa using hi) fun n => ?_
  change StateT.run (if l.stat = true then _ else _) _ = _
  rw [if_pos h.stat]
  change (LexM.endWord.run _).bind _ = _
  rw [hrun]
  rfl

/-! ## Strings and characters

The macro `isprint` reads two characters where it tests one, so that the loops take them in pairs.
-/

/-- Only characters are written, and as many are taken from the port. -/
structure Lexer.Fills (l l' : Lexer) : Prop where
  tokens : l'.tokens = l.tokens
  i : l'.i = l.i
  s : l.s ≤ l'.s
  scan : ∀ j < l.s, l'.scan j = l.scan j
  stat : l'.stat = l.stat
  isfloat : l'.isfloat = l.isfloat
  finished : l'.finished = l.finished
  stack : l'.stack = l.stack
  room : l'.s + l'.port.length ≤ l.s + l.port.length

namespace Lexer.Fills

theorem trans (h : l.Fills l₁) (h' : l₁.Fills l') : l.Fills l' where
  tokens := h'.tokens.trans h.tokens
  i := h'.i.trans h.i
  s := h.s.trans h'.s
  scan j hj := (h'.scan j (hj.trans_le h.s)).trans (h.scan j hj)
  stat := h'.stat.trans h.stat
  isfloat := h'.isfloat.trans h.isfloat
  finished := h'.finished.trans h.finished
  stack := h'.stack.trans h.stack
  room := h'.room.trans h.room

theorem of_port (h : port.length ≤ l.port.length) : l.Fills { l with port := port } :=
  ⟨rfl, rfl, le_rfl, fun _ _ => rfl, rfl, rfl, rfl, rfl, Nat.add_le_add_left h _⟩

theorem of_put {p : List Char} (h : p.length + 1 ≤ l.port.length) : l.Fills { l with
    port := p, scan := Function.update l.scan l.s (some c), s := l.s + 1 } :=
  ⟨rfl, rfl, Nat.le_succ _, fun _ hk => Function.update_of_ne (Nat.ne_of_lt hk) _ _, rfl, rfl, rfl,
    rfl, by dsimp only; omega⟩

theorem has (h : l.Fills l') (hl : l.Has e xs stat f stack port) :
    l'.Has e xs stat f stack l'.port where
  wrote := hl.wrote.mono h.i h.s h.scan fun _ _ => by rw [h.tokens]
  stat := h.stat.trans hl.stat
  isfloat := h.isfloat.trans hl.isfloat
  finished := h.finished.trans hl.finished
  stack := h.stack.trans hl.stack
  room := by
    have := h.room
    rw [hl.port] at this
    exact this.trans_lt hl.room
  port := rfl

end Lexer.Fills

section Print

variable {d : Char}

/-- Two characters are taken where the first one does not exceed `~`. -/
theorem run_getPrint_of_le (hport : l.port = c :: d :: rest) (hc : c ≠ '\x00') (hd : d ≠ '\x00')
    (hle : charVal c ≤ 0x7e) :
    LexM.getPrint.run l = some ((d, decide (charVal d ≥ 0x20)), { l with port := rest }) := by
  unfold LexM.getPrint
  rw [StateT.run_bind, run_getChar hport hc]
  change StateT.run (if charVal c ≤ 0x7e then _ else _) _ = _
  rw [if_pos hle, StateT.run_bind, run_getChar rfl hd]
  rfl

/-- One is taken where it does. -/
theorem run_getPrint_of_gt (hport : l.port = c :: rest) (hc : c ≠ '\x00')
    (hle : ¬charVal c ≤ 0x7e) :
    LexM.getPrint.run l = some ((c, false), { l with port := rest }) := by
  unfold LexM.getPrint
  rw [StateT.run_bind, run_getChar hport hc]
  change StateT.run (if charVal c ≤ 0x7e then _ else _) _ = _
  rw [if_neg hle]
  rfl

/-- At the end of the text. -/
theorem run_getPrint_of_length (hlen : l.port.length ≤ 1) (hnul : '\x00' ∉ l.port) :
    ∃ c, LexM.getPrint.run l = some ((c, false), { l with port := [] }) := by
  cases hport : l.port with
  | nil =>
    have hget : ∀ {l : Lexer}, l.port = [] →
        LexM.getChar.run l = some (EOF, { l with port := [] }) := fun hport => by
      simp only [StateT.run, LexM.getChar, hport, schemePortGetChar]
    refine ⟨EOF, ?_⟩
    unfold LexM.getPrint
    rw [StateT.run_bind, hget hport, Option.bind_eq_bind, Option.bind_some,
      if_pos (show charVal EOF ≤ 0x7e by decide), StateT.run_bind, hget rfl]
    rfl
  | cons c rest =>
    rw [hport] at hlen hnul
    have hzero : rest.length = 0 := Nat.le_zero.mp (Nat.le_of_succ_le_succ hlen)
    obtain rfl := List.length_eq_zero_iff.mp hzero
    have hc : c ≠ '\x00' := fun heq => hnul (heq ▸ List.mem_cons_self)
    by_cases hle : charVal c ≤ 0x7e
    · refine ⟨EOF, ?_⟩
      unfold LexM.getPrint
      rw [StateT.run_bind, run_getChar hport hc]
      change StateT.run (if charVal c ≤ 0x7e then _ else _) _ = _
      rw [if_pos hle]
      rfl
    · exact ⟨c, run_getPrint_of_gt hport hc hle⟩

end Print

/-- What the loop over a string leaves of the text: the characters are taken in pairs. -/
def stringRest : List Char → List Char
  | [] => []
  | [_] => []
  | c :: d :: rest =>
    if charVal c ≤ 0x7e then
      if charVal d ≥ 0x20 then
        if d = '\\' then
          match rest with
          | [] => []
          | _ :: rest => stringRest rest
        else if d = '"' then rest
        else stringRest rest
      else rest
    else d :: rest

/-- What the loop over a character leaves of the text. -/
def charRest : List Char → List Char
  | [] => []
  | [_] => []
  | c :: d :: rest =>
    if charVal c ≤ 0x7e then
      if charVal d ≥ 0x20 then if isspace d ∨ d = EOF then rest else charRest rest
      else rest
    else d :: rest

theorem length_charRest : ∀ text, (charRest text).length ≤ text.length
  | [] => le_rfl
  | [_] => Nat.zero_le _
  | c :: d :: rest => by
    have ih := length_charRest rest
    unfold charRest
    simp only [List.length_cons]
    split_ifs <;> first | omega | simp only [List.length_cons]; omega

/-- The loop over a character ends, and leaves what `charRest` says. -/
theorem ends_lexChar : ∀ (text : List Char) {l : Lexer}, l.port = text → '\x00' ∉ text →
    l.s + text.length < schemeMaxExprLen + (charRest text).length →
    ∃ l', Ends lexChar l () l' ∧ l.Fills l' ∧ l'.port = charRest text
  | [], l, hport, hnul, _ => by
    obtain ⟨c, hget⟩ := run_getPrint_of_length (by simp [hport]) (hport ▸ hnul)
    exact ⟨_, .succ (.run_bind hget .pure), .of_port (Nat.zero_le _), rfl⟩
  | [_], l, hport, hnul, _ => by
    obtain ⟨c, hget⟩ := run_getPrint_of_length (by simp [hport]) (hport ▸ hnul)
    exact ⟨_, .succ (.run_bind hget .pure), .of_port (Nat.zero_le _), rfl⟩
  | c :: d :: rest, l, hport, hnul, hroom => by
    simp only [List.mem_cons, not_or] at hnul
    obtain ⟨hc, hd, hnul⟩ := hnul
    have hlen : l.port.length = rest.length + 2 := by rw [hport]; rfl
    unfold charRest at hroom ⊢
    simp only [List.length_cons] at hroom
    by_cases hle : charVal c ≤ 0x7e
    · have hget := run_getPrint_of_le hport (Ne.symm hc) (Ne.symm hd) hle
      rw [if_pos hle] at hroom ⊢
      by_cases hge : charVal d ≥ 0x20
      · rw [if_pos hge] at hroom ⊢
        rw [decide_eq_true hge] at hget
        by_cases hspace : isspace d = true ∨ d = EOF
        · rw [if_pos hspace]
          refine ⟨_, .succ (.run_bind hget (.ite_pos rfl (.ite_pos hspace .pure))), ?_, rfl⟩
          exact .of_port (by omega)
        · rw [if_neg hspace] at hroom ⊢
          have hrest := length_charRest rest
          have hs : l.s < schemeMaxExprLen := by omega
          have hput := run_putChar (l := { l with port := rest }) (c := d) hs
          obtain ⟨l', hends, hfills, hport'⟩ := ends_lexChar rest
            (l := { l with
              port := rest, scan := Function.update l.scan l.s (some d), s := l.s + 1 }) rfl hnul
            (by dsimp only; omega)
          refine ⟨l', .succ (.run_bind hget (.ite_pos rfl (.ite_neg hspace ?_))), ?_, hport'⟩
          · exact .run_bind hput hends
          · exact .trans (.of_put (by omega)) hfills
      · rw [if_neg hge] at hroom ⊢
        rw [decide_eq_false hge] at hget
        refine ⟨_, .succ (.run_bind hget .pure), ?_, rfl⟩
        exact .of_port (by omega)
    · rw [if_neg hle]
      refine ⟨_, .succ (.run_bind (run_getPrint_of_gt hport (Ne.symm hc) hle) .pure), ?_, rfl⟩
      exact .of_port (by simp only [List.length_cons]; omega)

theorem length_stringRest : ∀ text, (stringRest text).length ≤ text.length
  | [] => le_rfl
  | [_] => Nat.zero_le _
  | [c, d] => by
    unfold stringRest
    dsimp only
    split_ifs <;> first | exact Nat.zero_le _ | exact Nat.le_succ _
  | c :: d :: e :: rest => by
    have ih := length_stringRest rest
    have ih' := length_stringRest (e :: rest)
    unfold stringRest
    dsimp only
    simp only [List.length_cons] at ih' ⊢
    split_ifs <;> first | omega | simp only [List.length_cons]; omega

/-- A character that is taken for another. -/
theorem Lexer.Fills.of_store {p : List Char} {d : Char} (h : p.length + 1 ≤ l.port.length) :
    l.Fills { l with
      port := p, s := l.s + 1,
      scan := Function.update (Function.update l.scan l.s (some c)) l.s (some d) } where
  tokens := rfl
  i := rfl
  s := Nat.le_succ _
  scan _ hk := (Function.update_of_ne (Nat.ne_of_lt hk) _ _).trans
    (Function.update_of_ne (Nat.ne_of_lt hk) _ _)
  stat := rfl
  isfloat := rfl
  finished := rfl
  stack := rfl
  room := by dsimp only; omega

/-- The loop over a string ends on the text, and leaves `stringRest`. -/
def SkipsString (text : List Char) : Prop :=
  ∀ l : Lexer, l.port = text → '\x00' ∉ text →
    l.s + text.length < schemeMaxExprLen + (stringRest text).length →
    ∃ l', Ends lexString l () l' ∧ l.Fills l' ∧ l'.port = stringRest text

namespace SkipsString

variable {d : Char}

/-- At the end of the text. -/
theorem of_length {text : List Char} (hlen : text.length ≤ 1) (hrest : stringRest text = []) :
    SkipsString text := by
  rintro l rfl hnul -
  obtain ⟨c, hget⟩ := run_getPrint_of_length hlen hnul
  exact ⟨_, .succ (.run_bind hget .pure), .of_port (Nat.zero_le _), hrest.symm⟩

/-- A character that is too large ends the string. -/
theorem of_gt (hle : ¬charVal c ≤ 0x7e) : SkipsString (c :: d :: rest) := by
  intro l hport hnul _
  have hc : c ≠ '\x00' := fun heq => hnul (heq ▸ List.mem_cons_self)
  have hrest : stringRest (c :: d :: rest) = d :: rest := by
    rw [stringRest.eq_def]
    exact if_neg hle
  refine ⟨_, .succ (.run_bind (run_getPrint_of_gt hport hc hle) .pure), ?_, hrest.symm⟩
  exact .of_port (by rw [hport]; exact Nat.le_succ _)

/-- A second character that is too small ends the string. -/
theorem of_lt (hle : charVal c ≤ 0x7e) (hge : ¬charVal d ≥ 0x20) :
    SkipsString (c :: d :: rest) := by
  intro l hport hnul _
  simp only [List.mem_cons, not_or] at hnul
  have hget := run_getPrint_of_le hport (Ne.symm hnul.1) (Ne.symm hnul.2.1) hle
  rw [decide_eq_false hge] at hget
  have hrest : stringRest (c :: d :: rest) = rest := by
    rw [stringRest.eq_def]
    exact (if_pos hle).trans (if_neg hge)
  refine ⟨_, .succ (.run_bind hget .pure), ?_, hrest.symm⟩
  exact .of_port (by rw [hport]; exact (Nat.le_succ _).trans (Nat.le_succ _))

/-- The loop after a pair whose second character is put into the array. -/
def afterPair (n : ℕ) (d : Char) : LexM Unit := do
  if d = '\\' then do
    let c ← LexM.getChar
    if c = '"' ∨ c = '\\' then LexM.store ((← get).s - 1) c else LexM.putChar c
    lexString n
  else if d = '"' then
    LexM.store ((← get).s - 1) '\x00'
  else
    lexString n

theorem ends_of_pair (hle : charVal c ≤ 0x7e) (hge : charVal d ≥ 0x20)
    (hport : l.port = c :: d :: rest) (hnul : '\x00' ∉ c :: d :: rest)
    (hs : l.s < schemeMaxExprLen)
    (h : Ends (fun n => afterPair n d) { l with
      port := rest, scan := Function.update l.scan l.s (some d), s := l.s + 1 } () l') :
    Ends lexString l () l' := by
  simp only [List.mem_cons, not_or] at hnul
  have hget := run_getPrint_of_le hport (Ne.symm hnul.1) (Ne.symm hnul.2.1) hle
  rw [decide_eq_true hge] at hget
  have hput := run_putChar (l := { l with port := rest }) (c := d) hs
  exact .succ (.run_bind hget (.ite_pos rfl (.run_bind hput h)))

/-- One pair of characters of a string. -/
theorem stringRest_of_pair (hle : charVal c ≤ 0x7e) (hge : charVal d ≥ 0x20) :
    stringRest (c :: d :: rest) =
      if d = '\\' then stringRest rest.tail else if d = '"' then rest else stringRest rest := by
  rw [stringRest.eq_def]
  refine (if_pos hle).trans ((if_pos hge).trans ?_)
  cases rest <;> rfl

/-- A quote ends the string. -/
theorem quote (hle : charVal c ≤ 0x7e) : SkipsString (c :: '"' :: rest) := by
  intro l hport hnul hroom
  have hlen : l.port.length = rest.length + 2 := by rw [hport]; rfl
  have hrest : stringRest (c :: '"' :: rest) = rest := stringRest_of_pair hle (by decide)
  rw [hrest] at hroom ⊢
  simp only [List.length_cons] at hroom
  have hs : l.s < schemeMaxExprLen := by omega
  refine ⟨_, ends_of_pair hle (by decide) hport hnul hs ?_,
    .of_store (p := rest) (c := '"') (d := '\x00') (by omega), rfl⟩
  exact .run_bind rfl (.of_run (run_store hs))

/-- Another character goes on with the string. -/
theorem next (ih : SkipsString rest) (hle : charVal c ≤ 0x7e) (hge : charVal d ≥ 0x20)
    (hslash : d ≠ '\\') (hquote : d ≠ '"') : SkipsString (c :: d :: rest) := by
  intro l hport hnul hroom
  have hlen : l.port.length = rest.length + 2 := by rw [hport]; rfl
  have hrest : stringRest (c :: d :: rest) = stringRest rest := by
    rw [stringRest_of_pair hle hge, if_neg hslash, if_neg hquote]
  have hle' := length_stringRest rest
  rw [hrest] at hroom ⊢
  simp only [List.length_cons] at hroom
  obtain ⟨l', hends, hfills, hport'⟩ := ih { l with
    port := rest, scan := Function.update l.scan l.s (some d), s := l.s + 1 } rfl
    (fun hmem => hnul (List.mem_cons_of_mem _ (List.mem_cons_of_mem _ hmem)))
    (by dsimp only; omega)
  refine ⟨l', ends_of_pair hle hge hport hnul (by omega) ?_, ?_, hport'⟩
  · exact .ite_neg hslash (.ite_neg hquote hends)
  · exact .trans (.of_put (p := rest) (by omega)) hfills

/-- A backslash takes the character after it, and a quote or a backslash takes its place. -/
theorem escape {a : Char} (ih : SkipsString rest) (hle : charVal c ≤ 0x7e) :
    SkipsString (c :: '\\' :: a :: rest) := by
  intro l hport hnul hroom
  have hlen : l.port.length = rest.length + 3 := by rw [hport]; rfl
  have hrest : stringRest (c :: '\\' :: a :: rest) = stringRest rest :=
    stringRest_of_pair hle (by decide)
  have hle' := length_stringRest rest
  rw [hrest] at hroom ⊢
  simp only [List.length_cons] at hroom
  have hs : l.s < schemeMaxExprLen := by omega
  have hnul' := hnul
  simp only [List.mem_cons, not_or] at hnul'
  have hget := run_getChar (c := a) (l := { l with
    port := a :: rest, scan := Function.update l.scan l.s (some '\\'), s := l.s + 1 }) rfl
    (Ne.symm hnul'.2.2.1)
  by_cases hescape : a = '"' ∨ a = '\\'
  · have hstore := run_store (c := a) (n := l.s) (l := { l with
      port := rest, scan := Function.update l.scan l.s (some '\\'), s := l.s + 1 }) hs
    obtain ⟨l', hends, hfills, hport'⟩ := ih { l with
      port := rest, s := l.s + 1,
      scan := Function.update (Function.update l.scan l.s (some '\\')) l.s (some a) } rfl
      hnul'.2.2.2 (by dsimp only; omega)
    refine ⟨l', ends_of_pair hle (by decide) hport hnul hs ?_, ?_, hport'⟩
    · exact .run_bind hget (.ite_pos hescape (.run_bind rfl (.run_bind hstore hends)))
    · exact .trans (.of_store (by omega)) hfills
  · have hput := run_putChar (c := a) (l := { l with
      port := rest, scan := Function.update l.scan l.s (some '\\'), s := l.s + 1 })
      (by dsimp only; omega)
    obtain ⟨l', hends, hfills, hport'⟩ := ih { l with
      port := rest, s := l.s + 1 + 1,
      scan := Function.update (Function.update l.scan l.s (some '\\')) (l.s + 1) (some a) } rfl
      hnul'.2.2.2 (by dsimp only; omega)
    refine ⟨l', ends_of_pair hle (by decide) hport hnul hs ?_, ?_, hport'⟩
    · exact .run_bind hget (.ite_neg hescape (.run_bind hput hends))
    · refine .trans (.of_put (p := a :: rest) (c := '\\') ?_) (.trans (.of_put le_rfl) hfills)
      rw [hlen, List.length_cons]
      omega

/-- The end of the text is put behind a backslash. -/
theorem escape_end (ih : SkipsString []) (hle : charVal c ≤ 0x7e) : SkipsString [c, '\\'] := by
  intro l hport hnul hroom
  have hlen : l.port.length = 2 := by rw [hport]; rfl
  have hrest : stringRest [c, '\\'] = [] := stringRest_of_pair hle (by decide)
  rw [hrest] at hroom ⊢
  simp only [List.length_cons, List.length_nil] at hroom
  have hput := run_putChar (c := EOF) (l := { l with
    port := [], scan := Function.update l.scan l.s (some '\\'), s := l.s + 1 })
    (by dsimp only; omega)
  obtain ⟨l', hends, hfills, hport'⟩ := ih { l with
    port := [], s := l.s + 1 + 1,
    scan := Function.update (Function.update l.scan l.s (some '\\')) (l.s + 1) (some EOF) } rfl
    List.not_mem_nil (by dsimp only [List.length_nil]; omega)
  refine ⟨l', ends_of_pair hle (by decide) hport hnul (by omega) ?_, ?_, hport'⟩
  · exact .run_bind (a := EOF) rfl (.ite_neg (by decide) (.run_bind hput hends))
  · refine .trans (.of_put (p := [EOF]) (c := '\\') ?_) (.trans (.of_put le_rfl) hfills)
    rw [hlen]
    exact le_rfl

end SkipsString

/-- **The loop over a string ends**. -/
theorem skipsString : ∀ text, SkipsString text
  | [] => .of_length (Nat.zero_le _) rfl
  | [_] => .of_length le_rfl rfl
  | c :: d :: rest => by
    by_cases hle : charVal c ≤ 0x7e
    · by_cases hge : charVal d ≥ 0x20
      · by_cases hslash : d = '\\'
        · subst hslash
          cases rest with
          | nil => exact .escape_end (skipsString []) hle
          | cons a rest => exact .escape (skipsString rest) hle
        by_cases hquote : d = '"'
        · exact hquote ▸ .quote hle
        · exact .next (skipsString rest) hle hge hslash hquote
      · exact .of_lt hle hge
    · exact .of_gt hle

theorem run_pushText {k : LexM Unit} (hi : l.i < lexTokenMax) :
    StateT.run (do LexM.setType t; LexM.setToken; LexM.nextToken; k) l = k.run { l with
      tokens := Function.update l.tokens l.i (some ⟨t, some l.s⟩), i := l.i + 1 } := by
  change ((LexM.setType t).run l).bind _ = _
  rw [run_setType hi, Option.bind_some]
  change (LexM.setToken.run _).bind _ = _
  rw [run_setToken (Function.update_self _ _ _), Function.update_idem]
  rfl

/-- The string at `l`, after the end of the word before it. -/
theorem Lexer.Has.goes_string_of_run (h : l₁.Has e xs false f stack rest)
    (hport : l.port = '"' :: rest) (hi : xs.length < lexTokenMax) (hnul : '\x00' ∉ rest)
    (he : e ≤ (stringRest rest).length)
    (hrun : ∀ n, (lexSwitch n '"').run { l with port := rest } = StateT.run (do
      LexM.setType .string
      LexM.setToken
      LexM.nextToken
      lexString n) l₁) :
    ∃ l', l.Goes l' ∧ l'.Has e (xs ++ [⟨.string, none⟩]) false f stack (stringRest rest) := by
  have hp := h.push .string (j := some l₁.s)
  obtain ⟨l', hends, hfills, hrest⟩ := skipsString rest _ hp.port hnul (by
    have := h.room
    dsimp only
    omega)
  have hl' := hfills.has hp
  rw [hrest] at hl'
  refine ⟨l', .of_ends hport (by decide) (by decide) (by decide) (by decide) ?_ hl'.finished, hl'⟩
  obtain ⟨N, hN⟩ := hends
  refine ⟨N, fun n hn => ?_⟩
  rw [hrun n, run_pushText (h.wrote.i ▸ hi)]
  exact hN n hn

theorem Lexer.Has.goes_string (h : l.Has e xs false f stack ('"' :: rest))
    (hi : xs.length < lexTokenMax) (hnul : '\x00' ∉ rest) (he : e ≤ (stringRest rest).length) :
    ∃ l', l.Goes l' ∧ l'.Has e (xs ++ [⟨.string, none⟩]) false f stack (stringRest rest) := by
  refine h.withPort.goes_string_of_run h.port hi hnul he fun n => ?_
  change StateT.run (if l.stat = true then _ else _) _ = _
  rw [if_neg (by rw [h.stat]; exact Bool.false_ne_true)]

/-- A string ends the word before it. -/
theorem Lexer.InWord.goes_string (h : l.InWord e xs t w f stack ('"' :: rest))
    (hi : xs.length + 1 < lexTokenMax) (hnul : '\x00' ∉ rest) (he : e ≤ (stringRest rest).length) :
    ∃ l', l.Goes l' ∧
      l'.Has e (xs ++ [⟨t, some w⟩] ++ [⟨.string, none⟩]) false f stack (stringRest rest) := by
  obtain ⟨l', hrun, h'⟩ := h.endsWord (he.trans (length_stringRest rest))
  refine h'.goes_string_of_run h.port (by simpa using hi) hnul he fun n => ?_
  change StateT.run (if l.stat = true then _ else _) _ = _
  rw [if_pos h.stat]
  change (LexM.endWord.run _).bind _ = _
  rw [hrun]
  rfl

theorem Lexer.Has.goes_character (h : l.Has e xs false f stack ('#' :: '\\' :: rest))
    (hi : xs.length < lexTokenMax) (hnul : '\x00' ∉ rest) (he : e ≤ (charRest rest).length) :
    ∃ l', l.Goes l' ∧ l'.Has e (xs ++ [⟨.char, none⟩]) false f stack (charRest rest) := by
  have hp := h.withPort.withPort.push .char (j := some l.s)
  have hroom := h.room
  simp only [List.length_cons] at hroom
  obtain ⟨l₁, hends, hfills, hrest⟩ := ends_lexChar rest hp.port hnul (by dsimp only; omega)
  have hl₁ := hfills.has hp
  have hs := hfills.room
  dsimp only at hs
  rw [hrest] at hl₁ hs
  -- the two characters before the text leave room for its NUL
  have hput := run_putChar (l := l₁) (c := '\x00') (by omega)
  have hl' : Lexer.Has { l₁ with
      scan := Function.update l₁.scan l₁.s (some '\x00'), s := l₁.s + 1 } e
      (xs ++ [⟨.char, none⟩]) false f stack (charRest rest) := by
    refine ⟨hl₁.wrote.mono rfl (Nat.le_succ _) (fun _ hk => ?_) fun _ _ => rfl, hl₁.stat,
      hl₁.isfloat, hl₁.finished, hl₁.stack, by dsimp only; omega, hl₁.port⟩
    exact Function.update_of_ne (Nat.ne_of_lt hk) _ _
  refine ⟨_, .of_ends h.port (by decide) (by decide) (by decide) (by decide) ?_ hl'.finished, hl'⟩
  obtain ⟨N, hN⟩ := hends
  refine ⟨N, fun n hn => ?_⟩
  rw [h.run_sharp (by decide)]
  change StateT.run (do
    LexM.setType .char
    LexM.setToken
    LexM.nextToken
    lexChar n
    LexM.putChar '\x00') { l with port := rest } = _
  rw [run_pushText (l := { l with port := rest }) (h.wrote.i ▸ hi)]
  rw [StateT.run_bind, hN n hn]
  exact hput

end SchemeOs
