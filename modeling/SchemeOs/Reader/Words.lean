import SchemeOs.Reader.Marks

/-!
# Reader/Words — the tokens of a text

A text is cut into pieces: words, brackets, marks, strings, characters and white space.  Where
nothing but white space, a closing bracket or a string follows a word, the lexer makes one token of
every piece but white space, and the type of a word is told by its characters alone.
-/

namespace SchemeOs

open LexM

variable {l l' : Lexer} {xs : List Spelled} {stack : ℤ} {rest w : List Char} {c : Char} {e : ℕ}
  {f : Bool}

/-! ## Pieces

A text cut into words, marks and literals, with the token that each piece is meant to give. -/

/-- A piece of a text. -/
inductive Piece where
  | blank (c : Char)
  | word (w : List Char)
  | opening
  | closing
  | vector
  | quote
  | backquote
  | comma
  | commaAt
  | sharp (c : Char)
  | string (w : List Char)
  | character (w : List Char)

namespace Piece

def text : Piece → List Char
  | .blank c => [c]
  | .word w => w
  | .opening => ['(']
  | .closing => [')']
  | .vector => ['#', '(']
  | .quote => ['\'']
  | .backquote => ['`']
  | .comma => [',']
  | .commaAt => [',', '@']
  | .sharp c => ['#', c]
  | .string w => '"' :: (w ++ ['"'])
  | .character w => '#' :: '\\' :: w

/-- The token of the piece.  That of a word depends on the word alone. -/
def token : Piece → List Spelled
  | .blank _ => []
  | .word w => [⟨(wordKind false w).1, some w⟩]
  | .opening => [⟨.leftPar, none⟩]
  | .closing => [⟨.rightPar, none⟩]
  | .vector => [⟨.leftSharpar, none⟩]
  | .quote => [⟨.quote, none⟩]
  | .backquote => [⟨.backquote, none⟩]
  | .comma => [⟨.comma, none⟩]
  | .commaAt => [⟨.commaAt, none⟩]
  | .sharp c => ((sharpType c).map (⟨·, none⟩)).toList
  | .string _ => [⟨.string, none⟩]
  | .character _ => [⟨.char, none⟩]

/-- How many lists the piece opens. -/
def depth : Piece → ℤ
  | .opening | .vector => 1
  | .closing => -1
  | _ => 0

/-- What is left after the last piece of a datum: a bracket, or a word and the blank after it. -/
def last (stack : ℤ) : Piece → List Piece → Option (List Piece)
  | .closing, ps => if stack - 1 = 0 then some ps else none
  | .word _, .blank _ :: ps => if stack = 0 then some ps else none
  | _, _ => none

/-- `isfloat` after the piece. -/
def flag (f : Bool) : Piece → List Piece → Bool
  | .word _, .blank _ :: _ => false
  | .word w, _ => (wordKind f w).2
  | _, _ => f

end Piece

def textOf (ps : List Piece) : List Char := ps.flatMap Piece.text

/-- The tokens of a text up to the end of the datum, and what is left. -/
def lexed (stack : ℤ) : List Piece → List Spelled × List Piece
  | [] => ([], [])
  | p :: ps =>
    match p.last stack ps with
    | some rest => (p.token, rest)
    | none => (p.token ++ (lexed (stack + p.depth) ps).1, (lexed (stack + p.depth) ps).2)

def Piece.IsBlank : Piece → Prop
  | .blank c => Delimited [c]
  | _ => False

/-- The rest of the text starts with the pieces, but for blanks. -/
def Resumes (rest : List Char) (ps : List Piece) : Prop :=
  ∃ bs ps', ps = bs ++ ps' ∧ (∀ b ∈ bs, b.IsBlank) ∧ rest = textOf ps'

/-- What may follow a word. -/
def EndsRun : List Piece → Prop
  | [] | .closing :: _ | .string _ :: _ => True
  | .blank c :: _ => Delimited [c]
  | _ => False

/-- The text of a string: a quote has a backslash before it. -/
def Unquoted : List Char → Prop
  | [] => True
  | ['\\'] => False
  | '\\' :: _ :: w => Unquoted w
  | c :: w => c ≠ '"' ∧ Unquoted w

/-- The text of a character: one of any kind, and what goes on with it. -/
def IsCharacter (w : List Char) : Prop := w ≠ [] ∧ ∀ c ∈ w.tail, WordChar c

/-- The piece stands where the lexer makes its token of it.  A word is ended by white space, by a
closing bracket or by a string, and a flag that an earlier word has left does not change its type;
the loops over strings and characters come to their end. -/
def Piece.Fits (f : Bool) : Piece → List Piece → Prop
  | .blank c, _ => Delimited [c]
  | .word w, ps => IsRun w ∧ (wordKind f w).1 = (wordKind false w).1 ∧ EndsRun ps
  | .comma, ps => ∃ c rest, textOf ps = c :: rest ∧ c ≠ EOF ∧ c ≠ '@'
  | .sharp c, _ => (sharpType c).isSome
  | .string w, ps => Unquoted w ∧ Resumes (stringRest (w ++ '"' :: textOf ps)) ps
  | .character w, ps => IsCharacter w ∧ EndsRun ps ∧ Resumes (charRest (w ++ textOf ps)) ps
  | _, _ => True

/-- Every piece of the datum stands where the lexer makes its token of it. -/
def WellPlaced (f : Bool) (stack : ℤ) : List Piece → Prop
  | [] => True
  | p :: ps => p.Fits f ps ∧
    (p.last stack ps = none → WellPlaced (p.flag f ps) (stack + p.depth) ps)

/-- The loop reads the text up to `rest`. -/
def Lexer.Reads (l : Lexer) (xs : List Spelled) (rest : List Char) : Prop :=
  ∃ l', Ends lexLoop l () l' ∧ l'.port = rest ∧
    (l'.stat = false ∧ l'.Wrote xs ∨
      ∃ ys t w f stack, xs = ys ++ [⟨t, some w⟩] ∧ l'.InWord 0 ys t w f stack [])

theorem Lexer.Reads.of_goes (hgoes : l.Goes l') (h : l'.Reads xs rest) : l.Reads xs rest := by
  obtain ⟨l₁, hends, h₁⟩ := h
  exact ⟨l₁, hgoes _ hends, h₁⟩

/-- The marker after the tokens. -/
theorem Lexer.Wrote.setTag (h : l.Wrote xs) (hi : xs.length < lexTokenMax) :
    ∃ l', (LexM.setType .tagEnd).run l = some ((), l') ∧ l'.toBuffers.SpellsAll xs ∧
      l'.port = l.port := by
  refine ⟨_, run_setType (h.i ▸ hi), ?_, rfl⟩
  refine Lexer.Wrote.spellsAll (l := Lexer.mk _ _ l.i _ _ _ _ _) ?_ ?_
  · exact h.mono rfl le_rfl (fun _ _ => rfl) fun _ hk => Function.update_of_ne (Nat.ne_of_lt hk) _ _
  · exact ⟨_, Function.update_self _ _ _, rfl⟩

theorem Lexer.Reads.lexTokens (h : l.Reads xs rest) (hi : xs.length < lexTokenMax) :
    ∃ l₁, Ends lexTokens l () l₁ ∧ l₁.toBuffers.SpellsAll xs ∧ l₁.port = rest := by
  obtain ⟨l', hloop, rfl, ⟨hstat, hwrote⟩ | ⟨ys, t, w, f, stack, rfl, hword⟩⟩ := h
  · obtain ⟨l₁, hrun, hspells, hport⟩ := hwrote.setTag hi
    refine ⟨l₁, hloop.bind (.run_bind (t := l') rfl ?_), hspells, hport⟩
    exact .ite_neg (by rw [hstat]; exact Bool.false_ne_true) (.of_run hrun)
  · have hroom : l'.s < schemeMaxExprLen := by
      have := hword.room
      omega
    obtain ⟨k, hend, -, hk⟩ := hword.run_endWord le_rfl
    obtain ⟨l₁, hrun, hspells, -⟩ := hk.wrote.setTag hi
    have hlen : l'.i + 1 < lexTokenMax := by
      rw [hword.wrote.i]
      simpa using hi
    obtain ⟨l₂, hends, hbuffers, hport⟩ :=
      ends_lexTokens_word hloop hword.stat hroom hlen hend hrun
    exact ⟨l₂, hends, hbuffers ▸ hspells, hport⟩

/-! ## The tokens of a text -/

section Pieces

variable {p : Piece} {ps ps' bs : List Piece}

theorem textOf_cons : textOf (p :: ps) = p.text ++ textOf ps := rfl

theorem lexed_of_none (h : p.last stack ps = none) : lexed stack (p :: ps) =
    (p.token ++ (lexed (stack + p.depth) ps).1, (lexed (stack + p.depth) ps).2) := by
  rw [lexed, h]

theorem lexed_of_some {rest : List Piece} (h : p.last stack ps = some rest) :
    lexed stack (p :: ps) = (p.token, rest) := by
  rw [lexed, h]

theorem lexed_blank : lexed stack (.blank c :: ps) = lexed stack ps := by
  have hdepth : stack + (Piece.blank c).depth = stack := add_zero stack
  rw [lexed_of_none rfl, hdepth]
  rfl

theorem WellPlaced.of_blank (h : WellPlaced f stack (.blank c :: ps)) : WellPlaced f stack ps := by
  have hdepth : stack + (Piece.blank c).depth = stack := add_zero stack
  rw [← hdepth]
  exact h.2 rfl

theorem lexed_word (h : Piece.last stack (.word w) ps = none) : lexed stack (.word w :: ps) =
    ([⟨(wordKind false w).1, some w⟩] ++ (lexed stack ps).1, (lexed stack ps).2) := by
  have hdepth : stack + (Piece.word w).depth = stack := add_zero stack
  rw [lexed_of_none h, hdepth]
  rfl

theorem WellPlaced.of_word (h : WellPlaced f stack (.word w :: ps))
    (hlast : Piece.last stack (.word w) ps = none) :
    WellPlaced (Piece.flag f (.word w) ps) stack ps := by
  have hdepth : stack + (Piece.word w).depth = stack := add_zero stack
  rw [← hdepth]
  exact h.2 hlast

/-- Blanks say nothing. -/
theorem blanks (hbs : ∀ b ∈ bs, b.IsBlank) (h : WellPlaced f stack (bs ++ ps)) :
    WellPlaced f stack ps ∧ lexed stack (bs ++ ps) = lexed stack ps := by
  induction bs with
  | nil => exact ⟨h, rfl⟩
  | cons b bs ih =>
    have hb := hbs b List.mem_cons_self
    cases b with
    | blank c =>
      obtain ⟨hps, heq⟩ := ih (fun b hb => hbs b (List.mem_cons_of_mem _ hb)) h.of_blank
      exact ⟨hps, lexed_blank.trans heq⟩
    | _ => exact hb.elim

theorem length_textOf_cons : (textOf ps).length ≤ (textOf (p :: ps)).length := by
  rw [textOf_cons, List.length_append]
  exact Nat.le_add_left _ _

theorem length_last {rest : List Piece} (h : p.last stack ps = some rest) :
    (textOf rest).length ≤ (textOf ps).length := by
  unfold Piece.last at h
  split at h
  · split_ifs at h
    cases h
    exact le_rfl
  · split_ifs at h
    cases h
    exact length_textOf_cons
  · cases h

/-- What is left is the end of the text. -/
theorem length_lexed : (textOf (lexed stack ps).2).length ≤ (textOf ps).length := by
  induction ps generalizing stack with
  | nil => exact le_rfl
  | cons p ps ih =>
    refine le_trans ?_ length_textOf_cons
    cases hlast : p.last stack ps with
    | none =>
      rw [lexed_of_none hlast]
      exact ih
    | some rest =>
      rw [lexed_of_some hlast]
      exact length_last hlast

theorem length_lexed_cons : (textOf (lexed stack (p :: ps)).2).length ≤ (textOf ps).length := by
  cases hlast : p.last stack ps with
  | none =>
    rw [lexed_of_none hlast]
    exact length_lexed
  | some rest =>
    rw [lexed_of_some hlast]
    exact length_last hlast

theorem length_token : p.token.length ≤ (lexed stack (p :: ps)).1.length := by
  cases hlast : p.last stack ps with
  | none =>
    rw [lexed_of_none hlast, List.length_append]
    exact Nat.le_add_right _ _
  | some rest => rw [lexed_of_some hlast]

theorem textOf_string :
    textOf (.string w :: ps) = '"' :: (w ++ '"' :: textOf ps) := by
  rw [textOf_cons, Piece.text, List.cons_append, List.append_assoc, List.singleton_append]

theorem not_mem_string (hnul : '\x00' ∉ textOf (.string w :: ps)) :
    '\x00' ∉ w ++ '"' :: textOf ps := by
  rw [textOf_string] at hnul
  exact fun hmem => hnul (List.mem_cons_of_mem _ hmem)

/-- What the induction over the pieces gives. -/
def ReadsPieces (ps : List Piece) : Prop :=
  ∀ (l : Lexer) (e : ℕ) (xs : List Spelled) (f : Bool) (stack : ℤ), WellPlaced f stack ps →
    '\x00' ∉ textOf ps → xs.length + (lexed stack ps).1.length < lexTokenMax →
    e ≤ (textOf (lexed stack ps).2).length → l.Has e xs false f stack (textOf ps) →
    l.Reads (xs ++ (lexed stack ps).1) (textOf (lexed stack ps).2)

/-- A piece that is not the last, and blanks that the lexer takes with it. -/
theorem ReadsPieces.resume (ih : ReadsPieces ps') (hps : ps = bs ++ ps')
    (hbs : ∀ b ∈ bs, b.IsBlank) (hlast : p.last stack ps = none)
    (hw : WellPlaced f stack (p :: ps)) (hnul : '\x00' ∉ textOf (p :: ps))
    (hi : xs.length + (lexed stack (p :: ps)).1.length < lexTokenMax)
    (he : e ≤ (textOf (lexed stack (p :: ps)).2).length)
    (hgoes : e ≤ (textOf ps').length → ∃ l', l.Goes l' ∧
      l'.Has e (xs ++ p.token) false (p.flag f ps) (stack + p.depth) (textOf ps')) :
    l.Reads (xs ++ (lexed stack (p :: ps)).1) (textOf (lexed stack (p :: ps)).2) := by
  subst hps
  obtain ⟨hps', heq⟩ := blanks hbs (hw.2 hlast)
  rw [lexed_of_none hlast, heq] at hi he ⊢
  rw [List.length_append] at hi
  rw [textOf_cons, textOf, List.flatMap_append] at hnul
  simp only [List.mem_append, not_or] at hnul
  obtain ⟨l', hl', h'⟩ := hgoes (he.trans length_lexed)
  refine .of_goes hl' ?_
  rw [← List.append_assoc]
  exact ih l' e _ _ _ hps' hnul.2.2 (by rw [List.length_append]; omega) he h'

/-- A piece that is not the last. -/
theorem ReadsPieces.cons (ih : ReadsPieces ps) (hlast : p.last stack ps = none)
    (hw : WellPlaced f stack (p :: ps)) (hnul : '\x00' ∉ textOf (p :: ps))
    (hi : xs.length + (lexed stack (p :: ps)).1.length < lexTokenMax)
    (he : e ≤ (textOf (lexed stack (p :: ps)).2).length)
    (hgoes : ∃ l', l.Goes l' ∧
      l'.Has e (xs ++ p.token) false (p.flag f ps) (stack + p.depth) (textOf ps)) :
    l.Reads (xs ++ (lexed stack (p :: ps)).1) (textOf (lexed stack (p :: ps)).2) :=
  ih.resume (List.nil_append ps).symm (fun _ hb => absurd hb List.not_mem_nil) hlast hw hnul hi he
    fun _ => hgoes

/-- A piece that opens no list and is no word. -/
theorem ReadsPieces.flat (ih : ReadsPieces ps) (hlast : p.last stack ps = none)
    (hdepth : p.depth = 0) (hflag : p.flag f ps = f)
    (hw : WellPlaced f stack (p :: ps)) (hnul : '\x00' ∉ textOf (p :: ps))
    (hi : xs.length + (lexed stack (p :: ps)).1.length < lexTokenMax)
    (he : e ≤ (textOf (lexed stack (p :: ps)).2).length)
    (hgoes : ∃ l', l.Goes l' ∧
      l'.Has e (xs ++ p.token) false f stack (textOf ps)) :
    l.Reads (xs ++ (lexed stack (p :: ps)).1) (textOf (lexed stack (p :: ps)).2) := by
  refine ih.cons hlast hw hnul hi he ?_
  rw [hdepth, hflag, add_zero]
  exact hgoes

/-- A closing bracket, perhaps after a word. -/
theorem ReadsPieces.shuts (ih : ReadsPieces ps)
    (hw : WellPlaced f stack (.closing :: ps)) (hnul : '\x00' ∉ textOf (.closing :: ps))
    (hi : xs.length + (lexed stack (.closing :: ps)).1.length < lexTokenMax)
    (he : e ≤ (textOf (lexed stack (.closing :: ps)).2).length)
    (h : l.Shuts e (xs ++ [⟨.rightPar, none⟩]) f (stack - 1) (textOf ps)) :
    l.Reads (xs ++ (lexed stack (.closing :: ps)).1)
      (textOf (lexed stack (.closing :: ps)).2) := by
  by_cases hstack : stack - 1 = 0
  · have hlast : Piece.last stack .closing ps = some ps := if_pos hstack
    obtain ⟨l', hends, hwrote, hstat, hport⟩ := h.ends hstack
    rw [lexed_of_some hlast]
    exact ⟨l', hends, hport, .inl ⟨hstat, hwrote⟩⟩
  · exact ih.cons (if_neg hstack) hw hnul hi he (h.goes hstack)

/-- A string, perhaps after a word. -/
theorem ReadsPieces.string (ih : ∀ bs ps', ps = bs ++ ps' → ReadsPieces ps')
    (hw : WellPlaced f stack (.string w :: ps)) (hnul : '\x00' ∉ textOf (.string w :: ps))
    (hi : xs.length + (lexed stack (.string w :: ps)).1.length < lexTokenMax)
    (he : e ≤ (textOf (lexed stack (.string w :: ps)).2).length)
    (h : e ≤ (stringRest (w ++ '"' :: textOf ps)).length →
      ∃ l', l.Goes l' ∧ l'.Has e (xs ++ [⟨.string, none⟩]) false f stack
        (stringRest (w ++ '"' :: textOf ps))) :
    l.Reads (xs ++ (lexed stack (.string w :: ps)).1)
      (textOf (lexed stack (.string w :: ps)).2) := by
  obtain ⟨-, bs, ps', hps, hbs, hrest⟩ := hw.1
  refine (ih bs ps' hps).resume hps hbs rfl hw hnul hi he fun hle => ?_
  rw [hrest] at h
  have hdepth : stack + (Piece.string w).depth = stack := add_zero stack
  rw [hdepth]
  exact h hle

/-- **The lexer reads a text whose pieces are well placed**. -/
theorem readsPieces (ps : List Piece) : ReadsPieces ps := by
  induction hlen : ps.length using Nat.strong_induction_on generalizing ps with
  | _ n ih
  replace ih : ∀ p bs ps', ps = p :: (bs ++ ps') → ReadsPieces ps' := by
    rintro p bs ps' rfl
    refine ih ps'.length ?_ ps' rfl
    rw [← hlen, List.length_cons, List.length_append]
    omega
  intro l e xs f stack hw hnul hi he h
  cases ps with
  | nil =>
    rw [show lexed stack [] = ([], []) from rfl, List.append_nil]
    exact ⟨l, ends_of_nil h.port, h.port, .inl ⟨h.stat, h.wrote⟩⟩
  | cons p ps =>
    have ihps : ReadsPieces ps := ih p [] ps rfl
    have hlt := hi.trans_le' (Nat.add_le_add_left length_token xs.length)
    have hle := he.trans length_lexed_cons
    have hnul' := hnul
    rw [textOf_cons, List.mem_append, not_or] at hnul'
    cases p with
    | blank c =>
      refine ihps.flat rfl rfl rfl hw hnul hi he ?_
      rw [Piece.token, List.append_nil]
      exact h.goes_space hw.1
    | opening => exact ihps.cons rfl hw hnul hi he (h.goes_open (Nat.lt_of_succ_lt hlt))
    | vector => exact ihps.cons rfl hw hnul hi he (h.goes_vector (Nat.lt_of_succ_lt hlt))
    | closing => exact ihps.shuts hw hnul hi he (h.shuts (Nat.lt_of_succ_lt hlt))
    | quote =>
      exact ihps.flat rfl rfl rfl hw hnul hi he (h.goes_mark markOf_quote (Nat.lt_of_succ_lt hlt))
    | backquote =>
      exact ihps.flat rfl rfl rfl hw hnul hi he
        (h.goes_mark markOf_backquote (Nat.lt_of_succ_lt hlt))
    | comma =>
      obtain ⟨c, rest, heq, hEOF, hat⟩ := hw.1
      have hc : c ≠ '\x00' := by
        rintro rfl
        exact hnul'.2 (heq ▸ List.mem_cons_self)
      have h' : l.Has e xs false f stack (',' :: c :: rest) := heq ▸ h
      refine ihps.flat rfl rfl rfl hw hnul hi he ?_
      rw [heq]
      exact h'.goes_comma hc hEOF hat (Nat.lt_of_succ_lt hlt)
    | commaAt =>
      exact ihps.flat rfl rfl rfl hw hnul hi he (h.goes_commaAt (Nat.lt_of_succ_lt hlt))
    | sharp c =>
      obtain ⟨t, ht⟩ := Option.isSome_iff_exists.mp hw.1
      have htoken : (Piece.sharp c).token = [⟨t, none⟩] := by rw [Piece.token, ht]; rfl
      refine ihps.flat rfl rfl rfl hw hnul hi he ?_
      rw [htoken] at hlt ⊢
      exact h.goes_sharp ht (Nat.lt_of_succ_lt hlt)
    | string w =>
      rw [textOf_string] at h
      refine ReadsPieces.string (fun bs ps' hps => ih _ bs ps' (congrArg _ hps)) hw hnul hi he
        fun hle => ?_
      exact h.goes_string (Nat.lt_of_succ_lt hlt) (not_mem_string hnul) hle
    | character w =>
      obtain ⟨-, -, bs, ps', hps, hbs, hrest⟩ := hw.1
      refine (ih _ bs ps' (congrArg _ hps)).resume hps hbs rfl hw hnul hi he fun hle => ?_
      rw [← hrest] at hle ⊢
      have hdepth : stack + (Piece.character w).depth = stack := add_zero stack
      rw [hdepth]
      refine Lexer.Has.goes_character h (Nat.lt_of_succ_lt hlt) ?_ hle
      exact fun hmem => hnul (List.mem_cons_of_mem _ (List.mem_cons_of_mem _ hmem))
    | word w =>
      obtain ⟨hrun, hkind, hends⟩ := hw.1
      have hcons : textOf (.word w :: ps) = w ++ textOf ps := rfl
      rw [hcons] at h
      obtain ⟨l', hgoes, h'⟩ := h.goes_word (Nat.lt_of_succ_lt hlt) hrun hle
      refine .of_goes hgoes ?_
      rw [hkind] at h'
      cases ps with
      | nil =>
        obtain rfl : e = 0 := Nat.le_zero.mp hle
        exact ⟨l', ends_of_nil h'.port, h'.port, .inr ⟨xs, _, w, _, stack, rfl, h'⟩⟩
      | cons q ps =>
        have ihq : ReadsPieces ps := ih _ [q] ps rfl
        cases q with
        | blank c =>
          by_cases hstack : stack = 0
          · subst hstack
            have hlast : Piece.last 0 (.word w) (.blank c :: ps) = some ps := rfl
            rw [lexed_of_some hlast] at he ⊢
            obtain ⟨l₁, hends', hwrote, hstat, hport⟩ := h'.ends_space hends he
            exact ⟨l₁, hends', hport, .inl ⟨hstat, hwrote⟩⟩
          · have hps : Piece.blank c :: ps = [Piece.blank c] ++ ps := rfl
            refine ihq.resume hps ?_ (if_neg hstack) hw hnul hi he fun hle => ?_
            · intro b hb
              rw [List.mem_singleton.mp hb]
              exact hends
            · have hdepth : stack + (Piece.word w).depth = stack := add_zero stack
              rw [hdepth]
              exact h'.goes_space hends hstack hle
        | closing =>
          have hq := hw.of_word rfl
          rw [lexed_word rfl] at hi he ⊢
          rw [List.length_append, List.length_singleton, ← Nat.add_assoc] at hi
          rw [← List.append_assoc]
          have hlt' := hi.trans_le' (Nat.add_le_add_left length_token (xs.length + 1))
          refine ihq.shuts hq hnul'.2 (by simpa using hi) he (h'.shuts ?_ ?_)
          · exact Nat.lt_of_succ_lt hlt'
          · exact he.trans length_lexed_cons
        | string u =>
          have hq := hw.of_word rfl
          rw [lexed_word rfl] at hi he ⊢
          rw [List.length_append, List.length_singleton, ← Nat.add_assoc] at hi
          rw [← List.append_assoc]
          have hlt' := hi.trans_le' (Nat.add_le_add_left length_token (xs.length + 1))
          rw [textOf_string] at h'
          have ihs : ∀ bs ps', ps = bs ++ ps' → ReadsPieces ps' := fun bs ps' hps =>
            ih _ (_ :: bs) ps' (by rw [hps]; rfl)
          refine ReadsPieces.string ihs hq hnul'.2 (by simpa using hi) he fun hle => ?_
          exact h'.goes_string (Nat.lt_of_succ_lt hlt') (not_mem_string hnul'.2) hle
        | _ => exact hends.elim

end Pieces

/-- The lexer makes of every text the tokens of its pieces, and reads it up to the end of the datum:
every word gives one token, with the text of the word and a type that depends on the word alone. -/
def Segmented (ps : List Piece) : Prop :=
  ∀ b : Buffers, ∃ b',
    (∃ N, ∀ n, N ≤ n → makeTokenSeq n b (textOf ps) = some (b', textOf (lexed 0 ps).2)) ∧
      b'.SpellsAll (lexed 0 ps).1

/-- The pieces of the datum are well placed, and the arrays have room for them. -/
structure Segmentable (ps : List Piece) : Prop where
  wellPlaced : WellPlaced false 0 ps
  nul : '\x00' ∉ textOf ps
  tokens : (lexed 0 ps).1.length < lexTokenMax
  room : (textOf ps).length < schemeMaxExprLen + (textOf (lexed 0 ps).2).length

/-- **Where the pieces are well placed, every word becomes its token**. -/
theorem segmented_of_segmentable {ps : List Piece} (h : Segmentable ps) : Segmented ps := by
  intro b
  have hreads := readsPieces ps ⟨b, textOf ps, 0, 0, 0, false, false, false⟩ _ [] false 0
    h.wellPlaced h.nul (by simpa using h.tokens) le_rfl
    ⟨⟨rfl, nofun⟩, rfl, rfl, rfl, rfl, by simpa using h.room, rfl⟩
  obtain ⟨l₁, ⟨N, hN⟩, hspells, hport⟩ := hreads.lexTokens (by simpa using h.tokens)
  refine ⟨l₁.toBuffers, ⟨N, fun n hn => ?_⟩, hspells⟩
  rw [makeTokenSeq, hN n hn, Option.map_some, hport]

/-- The text `(a (b))`, with a blank before the second bracket. -/
theorem segmented_of_segmentable_list : Segmented
    [.opening, .word ['a'], .blank ' ', .opening, .word ['b'], .closing, .closing] := by
  have hrun (c : Char) (hc : c ∈ ['a', 'b']) : IsRun [c] := by
    simp only [List.mem_cons, List.not_mem_nil, or_false] at hc
    obtain rfl | rfl := hc
    all_goals
      refine ⟨List.cons_ne_nil _ _, ?_, List.forall_mem_singleton.mpr ?_⟩
      · rintro c ⟨⟩
        exact ⟨by decide, by decide⟩
      · exact ⟨by decide, by decide, by decide, by decide⟩
  have hblank : Delimited [' '] := by
    rintro c ⟨⟩
    exact ⟨by decide, by decide, by decide⟩
  refine segmented_of_segmentable ⟨?_, by decide, by decide, by decide⟩
  exact ⟨trivial, fun _ => ⟨⟨hrun 'a' (by simp), rfl, hblank⟩, fun _ => ⟨hblank, fun _ =>
    ⟨trivial, fun _ => ⟨⟨hrun 'b' (by simp), rfl, trivial⟩, fun _ => ⟨trivial, fun _ =>
      ⟨trivial, fun _ => trivial⟩⟩⟩⟩⟩⟩⟩

/-- In `(a(b))` the second bracket takes the place of the word before it. -/
theorem not_segmented :
    ¬Segmented [.opening, .word ['a'], .opening, .word ['b'], .closing, .closing] := by
  intro h
  obtain ⟨b', ⟨N, hN⟩, hspells⟩ := h .init
  have hrun : (makeTokenSeq 30 .init ['(', 'a', '(', 'b', ')', ')']).map
      (fun r => (r.1.tokens 1).map Token.type) = some (some .leftPar) := by decide +kernel
  obtain ⟨r, hr, htype⟩ := Option.map_eq_some_iff.mp hrun
  obtain ⟨⟨⟨⟩, l⟩, hlex, rfl⟩ := Option.map_eq_some_iff.mp hr
  obtain ⟨t, ht, hpar⟩ := Option.map_eq_some_iff.mp htype
  -- with more fuel the slot holds a bracket, too
  obtain ⟨l', hlex', hle⟩ := refines_lexTokens (Nat.le_max_right N 30) _ _
    ⟨.refl _, rfl, rfl, rfl, rfl, rfl, rfl, rfl⟩ () l hlex
  obtain ⟨⟨⟨⟩, l₁⟩, hlex₁, heq⟩ := Option.map_eq_some_iff.mp (hN _ (Nat.le_max_left N 30))
  obtain rfl : l' = l₁ := (Prod.mk.inj (Option.some.inj (hlex'.symm.trans hlex₁))).2
  obtain ⟨rfl, -⟩ := Prod.mk.inj heq
  obtain ⟨t', ht', htype', -⟩ := hle.buffers.tokens 1 t ht
  obtain ⟨u, hu, hsymbol, -⟩ := hspells.slot 1 ⟨.symbol, some ['a']⟩ rfl
  obtain rfl : t' = u := Option.some.inj (ht'.symm.trans hu)
  exact absurd (hpar.symm.trans (htype'.symm.trans hsymbol)) (by decide)

end SchemeOs
