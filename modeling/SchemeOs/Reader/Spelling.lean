import SchemeOs.Reader.RoundTrip

/-!
# Reader/Spelling — words

The lexer from the first character of a word to its end.  Where Reader/Tokens follows the data that
the tokens stand for, here it is the texts of the words; a word may be of any characters, and
`isfloat` may be set before it.
-/

namespace SchemeOs

open LexM

/-- A token, and its text where it is a word. -/
structure Spelled where
  type : TokenType
  text : Option (List Char)

variable {l l' l₁ : Lexer} {xs : List Spelled} {stack : ℤ} {rest w u port : List Char} {c : Char}
  {t t' : TokenType} {e n : ℕ} {stat f : Bool}

/-- The slot `k` holds the token. -/
def Buffers.Spells (b : Buffers) (k : ℕ) (x : Spelled) : Prop :=
  ∃ t, b.tokens k = some t ∧ t.type = x.type ∧ ∀ w ∈ x.text, tokenText b t = some w

/-- The array holds the tokens and the marker after them. -/
structure Buffers.SpellsAll (b : Buffers) (xs : List Spelled) : Prop where
  slot : ∀ k x, xs[k]? = some x → b.Spells k x
  marker : ∃ t, b.tokens xs.length = some t ∧ t.type = .tagEnd

/-! ## What is written

The tokens in the array with their texts in the buffer; while a word is read, its text is open. -/

/-- The lexer has written the tokens `xs`, and the texts of the words lie below `s`. -/
structure Lexer.Wrote (l : Lexer) (xs : List Spelled) : Prop where
  i : l.i = xs.length
  slot : ∀ k x, xs[k]? = some x → ∃ t, l.tokens k = some t ∧ t.type = x.type ∧
    ∀ w ∈ x.text, ∀ b : Buffers, (∀ j < l.s, b.scan j = l.scan j) → tokenText b t = some w

namespace Lexer.Wrote

/-- More characters change nothing. -/
theorem mono (h : l.Wrote xs) (hi : l'.i = l.i) (hs : l.s ≤ l'.s)
    (hscan : ∀ j < l.s, l'.scan j = l.scan j) (htok : ∀ k < l.i, l'.tokens k = l.tokens k) :
    l'.Wrote xs where
  i := hi.trans h.i
  slot k x hx := by
    obtain ⟨t, ht, htype, htext⟩ := h.slot k x hx
    have hk : k < xs.length := (List.getElem?_eq_some_iff.mp hx).1
    refine ⟨t, by rw [htok k (h.i ▸ hk), ht], htype, fun w hw b hb => htext w hw b fun j hj => ?_⟩
    rw [hb j (by omega), hscan j hj]

/-- One token more. -/
theorem push {x : Spelled} (h : l.Wrote xs) (hi : l'.i = l.i + 1) (hs : l.s ≤ l'.s)
    (hscan : ∀ j < l.s, l'.scan j = l.scan j) (htok : ∀ k < l.i, l'.tokens k = l.tokens k)
    {u : Token} (hu : l'.tokens l.i = some u) (htype : u.type = x.type)
    (htext : ∀ w ∈ x.text, ∀ b : Buffers, (∀ j < l'.s, b.scan j = l'.scan j) →
      tokenText b u = some w) : l'.Wrote (xs ++ [x]) where
  i := by rw [hi, h.i, List.length_append, List.length_singleton]
  slot k y hy := by
    rcases Nat.lt_trichotomy k xs.length with hk | rfl | hk
    · rw [List.getElem?_append_left hk] at hy
      obtain ⟨t, ht, htype', htext'⟩ := h.slot k y hy
      refine ⟨t, by rw [htok k (h.i ▸ hk), ht], htype',
        fun w hw b hb => htext' w hw b fun j hj => ?_⟩
      rw [hb j (by omega), hscan j hj]
    · rw [List.getElem?_concat_length] at hy
      cases hy
      exact ⟨u, h.i ▸ hu, htype, htext⟩
    · rw [List.getElem?_eq_none (by simpa using Nat.succ_le_of_lt hk)] at hy
      cases hy

theorem spellsAll (h : l.Wrote xs) (hend : ∃ t, l.tokens l.i = some t ∧ t.type = .tagEnd) :
    l.toBuffers.SpellsAll xs where
  slot k x hx := by
    obtain ⟨t, ht, htype, htext⟩ := h.slot k x hx
    exact ⟨t, ht, htype, fun w hw => htext w hw _ fun _ _ => rfl⟩
  marker := h.i ▸ hend

end Lexer.Wrote

/-- The variables of the lexer after the tokens `xs`. -/
structure Lexer.Has (l : Lexer) (e : ℕ) (xs : List Spelled) (stat f : Bool) (stack : ℤ)
    (port : List Char) : Prop where
  wrote : l.Wrote xs
  stat : l.stat = stat
  isfloat : l.isfloat = f
  finished : l.finished = false
  stack : l.stack = stack
  room : l.s + port.length < schemeMaxExprLen + e
  port : l.port = port

/-- The lexer is after the text `w` of a word of type `t`. -/
structure Lexer.InWord (l : Lexer) (e : ℕ) (xs : List Spelled) (t : TokenType) (w : List Char)
    (f : Bool) (stack : ℤ) (port : List Char) : Prop extends l.Has e xs true f stack port where
  token : ∃ j, l.tokens l.i = some ⟨t, some j⟩ ∧ j + w.length = l.s ∧
    ∀ m c, w[m]? = some c → l.scan (j + m) = some c
  nul : '\x00' ∉ w
  slot : xs.length < lexTokenMax

theorem Lexer.Has.withPort (h : l.Has e xs stat f stack (c :: rest)) :
    Lexer.Has { l with port := rest } e xs stat f stack rest where
  wrote := h.wrote.mono rfl le_rfl (fun _ _ => rfl) fun _ _ => rfl
  stat := h.stat
  isfloat := h.isfloat
  finished := h.finished
  stack := h.stack
  room := by have := h.room; rw [List.length_cons] at this; dsimp only; omega
  port := rfl

/-- One token more that is no word. -/
theorem Lexer.Has.push (h : l.Has e xs stat f stack port) (t : TokenType) {j : Option ℕ} :
    Lexer.Has { l with tokens := Function.update l.tokens l.i (some ⟨t, j⟩), i := l.i + 1 } e
      (xs ++ [⟨t, none⟩]) stat f stack port where
  wrote := by
    refine h.wrote.push (x := ⟨t, none⟩) rfl le_rfl (fun _ _ => rfl) (fun _ hk => ?_)
      (Function.update_self _ _ _) rfl nofun
    exact Function.update_of_ne (Nat.ne_of_lt hk) _ _
  stat := h.stat
  isfloat := h.isfloat
  finished := h.finished
  stack := h.stack
  room := h.room
  port := h.port

namespace Lexer.InWord

theorem withPort (h : l.InWord e xs t w f stack (c :: rest)) :
    Lexer.InWord { l with port := rest } e xs t w f stack rest where
  toHas := h.toHas.withPort
  token := h.token
  nul := h.nul
  slot := h.slot

/-- The next character of the word. -/
theorem put (h : l.InWord e xs t w f stack (c :: rest)) (hc : c ≠ '\x00') :
    Lexer.InWord { l with
      port := rest, scan := Function.update l.scan l.s (some c), s := l.s + 1 }
      e xs t (w ++ [c]) f stack rest where
  wrote := h.wrote.mono rfl (Nat.le_succ _)
    (fun _ hk => Function.update_of_ne (Nat.ne_of_lt hk) _ _) fun _ _ => rfl
  token := by
    obtain ⟨j, htok, hj, hw⟩ := h.token
    exact ⟨j, htok, by rw [List.length_append, List.length_singleton, ← hj]; rfl,
      scan_concat hj hw⟩
  nul := by
    rw [List.mem_append, List.mem_singleton, not_or]
    exact ⟨h.nul, hc.symm⟩
  stat := h.stat
  isfloat := h.isfloat
  finished := h.finished
  stack := h.stack
  room := by have := h.room; rw [List.length_cons] at this; dsimp only; omega
  port := rfl
  slot := h.slot

/-- The word gets another type. -/
theorem retype (h : l.InWord e xs t w f stack port) (t' : TokenType) :
    Lexer.InWord { l with
      tokens := Function.update l.tokens l.i (some ⟨t', (l.tokens l.i).bind Token.token⟩) }
      e xs t' w f stack port where
  wrote := h.wrote.mono rfl le_rfl (fun _ _ => rfl)
    fun _ hk => Function.update_of_ne (Nat.ne_of_lt hk) _ _
  token := by
    obtain ⟨j, htok, hj, hw⟩ := h.token
    refine ⟨j, ?_, hj, hw⟩
    dsimp only
    rw [Function.update_self, htok]
    rfl
  nul := h.nul
  stat := h.stat
  isfloat := h.isfloat
  finished := h.finished
  stack := h.stack
  room := h.room
  port := h.port
  slot := h.slot

theorem setFloat (h : l.InWord e xs t w f stack port) (f' : Bool) :
    Lexer.InWord { l with isfloat := f' } e xs t w f' stack port where
  wrote := h.wrote.mono rfl le_rfl (fun _ _ => rfl) fun _ _ => rfl
  token := h.token
  nul := h.nul
  stat := h.stat
  isfloat := rfl
  finished := h.finished
  stack := h.stack
  room := h.room
  port := h.port
  slot := h.slot

theorem run_tokenType (h : l.InWord e xs t w f stack port) :
    LexM.tokenType.run l = some (t, l) := by
  obtain ⟨j, htok, -⟩ := h.token
  simp only [StateT.run, LexM.tokenType, htok, Option.map_some]

/-- **The end of a word**: its text is closed. -/
theorem run_endWord (h : l.InWord e xs t w f stack port) (he : e ≤ port.length) :
    ∃ l', LexM.endWord.run l = some ((), l') ∧ l'.s = l.s + 1 ∧
      l'.Has (e + 1) (xs ++ [⟨t, some w⟩]) false f stack port := by
  obtain ⟨j, htok, hj, hw⟩ := h.token
  have hroom : l.s < schemeMaxExprLen := by have := h.room; omega
  refine ⟨{ l with
    stat := false, scan := Function.update l.scan l.s (some '\x00'), s := l.s + 1,
    i := l.i + 1 }, SchemeOs.run_endWord hroom, rfl, ?_, rfl, h.isfloat, h.finished, h.stack,
    by have := h.room; dsimp only; omega, h.port⟩
  refine h.wrote.push (x := ⟨t, some w⟩) rfl (Nat.le_succ _) (fun k hk => ?_) (fun _ _ => rfl)
    htok rfl ?_
  · exact Function.update_of_ne (Nat.ne_of_lt hk) _ _
  · rintro _ ⟨⟩ b hb
    exact textFrom_closed hj hw h.nul (by omega) hb

end Lexer.InWord

/-- The lexer in a word that has no character yet. -/
theorem Lexer.Has.begin (h : l.Has e xs false f stack port) (hi : xs.length < lexTokenMax) :
    Lexer.InWord { l with
      tokens := Function.update l.tokens l.i (some ⟨t, some l.s⟩), stat := true }
      e xs t [] f stack port where
  wrote := h.wrote.mono rfl le_rfl (fun _ _ => rfl)
    fun _ hk => Function.update_of_ne (Nat.ne_of_lt hk) _ _
  token := ⟨l.s, Function.update_self _ _ _, rfl, nofun⟩
  nul := List.not_mem_nil
  stat := rfl
  isfloat := h.isfloat
  finished := h.finished
  stack := h.stack
  room := h.room
  port := h.port
  slot := hi

/-! ## Words

The type of a word changes with its characters: an automaton of its own. -/

/-- The type of a word and `isfloat` after its first character. -/
def kindStart (f : Bool) (c : Char) : TokenType × Bool :=
  (if isdigit c then .number else if c = '.' then .point else .symbol, f)

/-- The type of a word and `isfloat` after one more character. -/
def kindStep (k : TokenType × Bool) (c : Char) : TokenType × Bool :=
  if c = '.' then
    if k.2 then (.symbol, k.2) else if k.1 = .number then (k.1, true) else k
  else if c = '#' then k
  else if isdigit c then if k.1 = .point then (.number, true) else k
  else if isprint c then if k.1 = .number then (.symbol, k.2) else k
  else k

/-- The type of a word and `isfloat` at its end, where it is `f` at the start. -/
def wordKind (f : Bool) : List Char → TokenType × Bool
  | [] => (.symbol, f)
  | c :: w => w.foldl kindStep (kindStart f c)

/-- A character in a word. -/
structure WordChar (c : Char) : Prop where
  isspace : isspace c = false
  notMem : c ∉ ['(', ')', '"', '\'', '`', ',', '@']
  ne_nul : c ≠ '\x00'
  ne_EOF : c ≠ EOF

/-- A word: its first character can be printed, and is no `#`. -/
structure IsRun (w : List Char) : Prop where
  ne_nil : w ≠ []
  start : ∀ c ∈ w.head?, isprint c = true ∧ c ≠ '#'
  wordChar : ∀ c ∈ w, WordChar c

theorem lexSwitch_wordChar (hc : WordChar c) (hsharp : c ≠ '#') (hpoint : c ≠ '.') :
    lexSwitch n c = lexWord c := by
  have hmem := hc.notMem
  simp only [List.mem_cons, List.not_mem_nil, or_false, not_or] at hmem
  unfold lexSwitch
  split <;> simp_all

namespace Lexer.InWord

/-- What the `switch` does with a character of a word. -/
theorem goes_of_run {f' : Bool} (h : l.InWord e xs t w f stack (c :: rest)) (hc : WordChar c)
    (hstep : kindStep (t, f) c = (t', f')) (h' : l'.InWord e xs t' (w ++ [c]) f' stack rest)
    (hrun : ∀ n, (lexSwitch n c).run { l with port := rest } = some ((), l')) :
    ∃ l', l.Goes l' ∧
      l'.InWord e xs (kindStep (t, f) c).1 (w ++ [c]) (kindStep (t, f) c).2 stack rest := by
  have hcomma : c ≠ ',' := fun heq => hc.notMem (by rw [heq]; decide)
  rw [hstep]
  exact ⟨l', .of_switch h.port hc.ne_nul hc.ne_EOF hc.isspace hcomma hrun h'.finished, h'⟩

/-- **The next character of a word**. -/
theorem goes_char (h : l.InWord e xs t w f stack (c :: rest)) (hc : WordChar c)
    (he : e ≤ rest.length) :
    ∃ l', l.Goes l' ∧
      l'.InWord e xs (kindStep (t, f) c).1 (w ++ [c]) (kindStep (t, f) c).2 stack rest := by
  have hroom : l.s < schemeMaxExprLen := by
    have := h.room
    rw [List.length_cons] at this
    omega
  have hi : l.i < lexTokenMax := h.wrote.i ▸ h.slot
  have hneg : ¬l.stat = false := by rw [h.stat]; decide
  have htype := h.withPort.run_tokenType
  have hkeep : kindStep (t, f) c = (t, f) →
      (∀ n, (lexSwitch n c).run { l with port := rest } =
        (LexM.putChar c).run { l with port := rest }) →
      ∃ l', l.Goes l' ∧
        l'.InWord e xs (kindStep (t, f) c).1 (w ++ [c]) (kindStep (t, f) c).2 stack rest := by
    intro hstep hrun
    refine h.goes_of_run hc hstep (h.put hc.ne_nul) fun n => ?_
    exact (hrun n).trans (run_putChar (l := { l with port := rest }) hroom)
  have hsymbol : kindStep (t, f) c = (.symbol, f) →
      (∀ n, (lexSwitch n c).run { l with port := rest } =
        (do LexM.setType .symbol; LexM.putChar c).run { l with port := rest }) →
      ∃ l', l.Goes l' ∧
        l'.InWord e xs (kindStep (t, f) c).1 (w ++ [c]) (kindStep (t, f) c).2 stack rest := by
    intro hstep hrun
    refine h.goes_of_run hc hstep ((h.retype .symbol).put hc.ne_nul) fun n => ?_
    refine (hrun n).trans ?_
    change (StateT.run (LexM.setType .symbol) _).bind _ = _
    rw [run_setType (l := { l with port := rest }) hi]
    exact run_putChar (l := Lexer.mk _ rest _ _ _ _ _ _) hroom
  by_cases hpoint : c = '.'
  · subst hpoint
    have hswitch : ∀ n, (lexSwitch n '.').run { l with port := rest } =
        StateT.run (if l.isfloat = true then do
          LexM.setType .symbol
          LexM.putChar '.'
        else do
          let t ← LexM.tokenType
          if t = TokenType.number then do
            modify fun l : Lexer => { l with isfloat := true }
            LexM.putChar '.'
          else LexM.putChar '.') { l with port := rest } := by
      intro n
      change StateT.run (if l.stat = false then _ else _) _ = _
      rw [if_neg hneg]
      rfl
    by_cases hf : f = true
    · refine hsymbol (by simp [kindStep, hf]) fun n => ?_
      rw [hswitch, if_pos (h.isfloat.trans hf)]
    have hneg' : ¬l.isfloat = true := fun heq => hf (h.isfloat.symm.trans heq)
    have hbind : ∀ n, (lexSwitch n '.').run { l with port := rest } =
        StateT.run (if t = TokenType.number then do
            modify fun l : Lexer => { l with isfloat := true }
            LexM.putChar '.'
          else LexM.putChar '.') { l with port := rest } := by
      intro n
      rw [hswitch, if_neg hneg', StateT.run_bind, htype]
      rfl
    by_cases hnumber : t = .number
    · have hstep : kindStep (t, f) '.' = (t, true) := by simp [kindStep, hf, hnumber]
      refine h.goes_of_run hc hstep ((h.setFloat true).put hc.ne_nul) fun n => ?_
      rw [hbind, if_pos hnumber]
      exact run_putChar (l := Lexer.mk _ rest _ _ _ _ true _) hroom
    · refine hkeep (by simp [kindStep, hf, hnumber]) fun n => ?_
      rw [hbind, if_neg hnumber]
  by_cases hsharp : c = '#'
  · subst hsharp
    refine hkeep rfl fun n => ?_
    change StateT.run (if l.stat = true then _ else _) _ = _
    rw [if_pos h.stat]
  have hword : ∀ n, lexSwitch n c = lexWord c := fun n => lexSwitch_wordChar hc hsharp hpoint
  by_cases hd : isdigit c = true
  · have hbind : ∀ n, (lexSwitch n c).run { l with port := rest } =
        StateT.run (if t = TokenType.point then do
            LexM.setType .number
            modify fun l : Lexer => { l with isfloat := true }
            LexM.putChar c
          else LexM.putChar c) { l with port := rest } := by
      intro n
      rw [hword n]
      unfold lexWord
      rw [if_pos hd]
      change StateT.run (if l.stat = false then _ else _) _ = _
      rw [if_neg hneg, StateT.run_bind, htype]
      rfl
    by_cases hp : t = .point
    · have hstep : kindStep (t, f) c = (.number, true) := by
        simp [kindStep, hpoint, hsharp, hd, hp]
      refine h.goes_of_run hc hstep (((h.retype .number).setFloat true).put hc.ne_nul) fun n => ?_
      rw [hbind, if_pos hp]
      change (StateT.run (LexM.setType .number) _).bind _ = _
      rw [run_setType (l := { l with port := rest }) hi]
      exact run_putChar (l := Lexer.mk _ rest _ _ _ _ true _) hroom
    · refine hkeep (by simp [kindStep, hpoint, hsharp, hd, hp]) fun n => ?_
      rw [hbind, if_neg hp]
  by_cases hprint : isprint c = true
  · have hbind : ∀ n, (lexSwitch n c).run { l with port := rest } =
        StateT.run (if t = TokenType.number then do
            LexM.setType .symbol
            LexM.putChar c
          else LexM.putChar c) { l with port := rest } := by
      intro n
      rw [hword n]
      unfold lexWord
      rw [if_neg hd, if_pos hprint]
      change StateT.run (if l.stat = false then _ else _) _ = _
      rw [if_neg hneg, StateT.run_bind, htype]
      rfl
    by_cases hnumber : t = .number
    · refine hsymbol (by simp [kindStep, hpoint, hsharp, hd, hprint, hnumber]) fun n => ?_
      rw [hbind, if_pos hnumber]
    · refine hkeep (by simp [kindStep, hpoint, hsharp, hd, hprint, hnumber]) fun n => ?_
      rw [hbind, if_neg hnumber]
  · refine hkeep (by simp [kindStep, hpoint, hsharp, hd, hprint]) fun n => ?_
    rw [hword n]
    unfold lexWord
    rw [if_neg hd, if_neg hprint]

/-- **The rest of a word**. -/
theorem goes_word (h : l.InWord e xs t w f stack (u ++ rest)) (hu : ∀ c ∈ u, WordChar c)
    (he : e ≤ rest.length) : ∃ l', l.Goes l' ∧
      l'.InWord e xs (u.foldl kindStep (t, f)).1 (w ++ u) (u.foldl kindStep (t, f)).2 stack
        rest := by
  induction u generalizing l w t f with
  | nil => exact ⟨l, fun _ h => h, by rw [List.append_nil]; exact h⟩
  | cons c u ih =>
    rw [List.cons_append] at h
    obtain ⟨l', hgoes, h'⟩ := h.goes_char (hu c List.mem_cons_self)
      (by rw [List.length_append]; omega)
    obtain ⟨l₁, hgoes₁, h₁⟩ := ih h' fun d hd => hu d (List.mem_cons_of_mem c hd)
    rw [List.append_assoc] at h₁
    exact ⟨l₁, hgoes.trans hgoes₁, h₁⟩

end Lexer.InWord

/-- **A word**. -/
theorem Lexer.Has.goes_word (h : l.Has e xs false f stack (w ++ rest))
    (hi : xs.length < lexTokenMax) (hw : IsRun w) (he : e ≤ rest.length) :
    ∃ l', l.Goes l' ∧ l'.InWord e xs (wordKind f w).1 w (wordKind f w).2 stack rest := by
  obtain ⟨c, u, rfl⟩ := List.exists_cons_of_ne_nil hw.ne_nil
  rw [List.cons_append] at h
  obtain ⟨hprint, hsharp⟩ := hw.start c rfl
  have hc := hw.wordChar c List.mem_cons_self
  have hroom : l.s < schemeMaxExprLen := by
    have := h.room
    rw [List.length_cons, List.length_append] at this
    omega
  have hi' : l.i < lexTokenMax := h.wrote.i ▸ hi
  have hbegin := (h.begin (t := (kindStart f c).1) hi).put hc.ne_nul
  have hcomma : c ≠ ',' := fun heq => hc.notMem (by rw [heq]; decide)
  obtain ⟨l', hgoes, h'⟩ := hbegin.goes_word
    (fun d hd => hw.wordChar d (List.mem_cons_of_mem c hd)) he
  refine ⟨l', .trans ?_ hgoes, h'⟩
  refine .of_switch h.port hc.ne_nul hc.ne_EOF hc.isspace hcomma (fun n => ?_) h.finished
  have hrun : (do LexM.beginWord (kindStart f c).1; LexM.putChar c).run
      { l with port := u ++ rest } = some ((), { l with
        port := u ++ rest, scan := Function.update l.scan l.s (some c), s := l.s + 1,
        tokens := Function.update l.tokens l.i (some ⟨(kindStart f c).1, some l.s⟩),
        stat := true }) := by
    change ((LexM.beginWord _).run _).bind _ = _
    rw [run_beginWord (l := { l with port := u ++ rest }) hi']
    exact run_putChar (l := Lexer.mk _ _ _ _ _ _ _ _) hroom
  by_cases hpoint : c = '.'
  · subst hpoint
    change StateT.run (if l.stat = false then _ else _) _ = _
    rw [if_pos h.stat]
    exact hrun
  · rw [lexSwitch_wordChar hc hsharp hpoint]
    unfold lexWord
    by_cases hd : isdigit c = true
    · rw [if_pos hd]
      change StateT.run (if l.stat = false then _ else _) _ = _
      rw [if_pos h.stat]
      have hstart : (kindStart f c).1 = .number := if_pos hd
      rw [hstart] at hrun ⊢
      exact hrun
    · rw [if_neg hd, if_pos hprint]
      change StateT.run (if l.stat = false then _ else _) _ = _
      rw [if_pos h.stat]
      have hstart : (kindStart f c).1 = .symbol := (if_neg hd).trans (if_neg hpoint)
      rw [hstart] at hrun ⊢
      exact hrun

end SchemeOs
