import Mathlib
import SchemeOs.Machinery.Ensures
import SchemeOs.Reader.Lexer

/-!
# Reader/Overrun — where the text ends

The port goes on behind the NUL at the end of a text, and only the loop over the tokens looks for
that end.  So the lexer stays within the text exactly when the text does not end inside a string, a
character, after a `#` or after a comma; `scan` finds out by the characters alone.
-/

namespace SchemeOs

open LexM

variable {α β : Type} {l l' : Lexer} {c : Char} {text port rest : List Char} {stack : ℤ}
  {stat finished : Bool} {n : ℕ}

/-! ## Scanning a text

Where the lexer is in a text, told by an automaton that knows nothing of tokens. -/

/-- Where the lexer is in a text: between tokens or in a word, after a comma or a `#`, before the
first or the second character that an `isprint` takes from a string or a character, after a
backslash, or done. -/
inductive Place where
  | main (stack : ℤ) (stat : Bool)
  | comma (stack : ℤ) (stat : Bool)
  | sharp (stack : ℤ)
  | string (stack : ℤ)
  | string2 (stack : ℤ)
  | escape (stack : ℤ)
  | char (stack : ℤ)
  | char2 (stack : ℤ)
  | done
  deriving DecidableEq, Repr

namespace Place

/-- The place after a character that is no comma and comes between tokens or in a word. -/
def nextMain (stack : ℤ) (stat : Bool) (c : Char) : Place :=
  if isspace c then
    if stat = true ∧ stack = 0 then .done else .main stack false
  else if c = '(' then .main (stack + 1) false
  else if c = ')' then if stack - 1 = 0 then .done else .main (stack - 1) false
  else if c = '"' then .string stack
  else if c = '#' then if stat then .main stack true else .sharp stack
  else if c = '\'' ∨ c = '`' then .main stack stat
  else if c = '@' ∨ c = '.' then .main stack true
  else .main stack (stat || isdigit c || isprint c)

/-- The place after the character. -/
def next : Place → Char → Place
  | .main stack stat, c =>
    if c = EOF then .done
    else if c = ',' then .comma stack stat
    else nextMain stack stat c
  | .comma stack stat, c =>
    if c = '@' then .main stack stat
    else if c = ',' then .comma stack stat
    else nextMain stack stat c
  | .sharp stack, c =>
    if c = '(' then .main (stack + 1) false
    else if c = '\\' then .char stack
    else .main stack false
  | .string stack, c => if charVal c ≤ 0x7e then .string2 stack else .main stack false
  | .string2 stack, c =>
    if charVal c < 0x20 ∨ c = '"' then .main stack false
    else if c = '\\' then .escape stack
    else .string stack
  | .escape stack, _ => .string stack
  | .char stack, c => if charVal c ≤ 0x7e then .char2 stack else .main stack false
  | .char2 stack, c =>
    if charVal c < 0x20 ∨ isspace c = true then .main stack false else .char stack
  | .done, _ => .done

/-- The place at the end of the text. -/
def scan (q : Place) (text : List Char) : Place := text.foldl next q

/-- Inside of a token that only its own characters end. -/
def Inside : Place → Prop
  | .main _ _ | .done => False
  | _ => True

instance : DecidablePred Inside := fun q => by
  cases q <;> first | exact isFalse id | exact isTrue trivial

@[simp] theorem scan_nil {q : Place} : q.scan [] = q := rfl

@[simp] theorem scan_cons {q : Place} : q.scan (c :: text) = (q.next c).scan text := rfl

/-- Once the datum is complete, nothing more is scanned. -/
theorem scan_done : Place.done.scan text = .done := by
  induction text with
  | nil => rfl
  | cons c text ih => exact ih

end Place

/-! ## The flow of control -/

/-- What the flow of control depends on. -/
structure Control where
  port : List Char
  stack : ℤ
  stat : Bool
  finished : Bool

def Lexer.control (l : Lexer) : Control := ⟨l.port, l.stack, l.stat, l.finished⟩

/-- The computation leaves the control as it is. -/
def Still (k : LexM α) : Prop := ∀ l, Ensures k l fun _ l' => l'.control = l.control

namespace Still

theorem bind {k : LexM α} {f : α → LexM β} (h : Still k) (hf : ∀ a, Still (f a)) :
    Still (k >>= f) := fun l =>
  (h l).bind fun a l₁ h₁ => (hf a l₁).mono fun _ _ h₂ => h₂.trans h₁

theorem get : Still (get : LexM Lexer) := fun _ => .of_run rfl rfl

theorem store {k : ℕ} : Still (store k c) := by
  rintro l ⟨⟩ l' hrun
  change (if k < schemeMaxExprLen then _ else none) = _ at hrun
  split_ifs at hrun
  cases hrun
  rfl

/-- A character is stored, and nothing is read. -/
theorem putChar : Still (putChar c) :=
  bind get fun _ => bind store fun _ _ => .of_run rfl rfl

theorem tokenType : Still tokenType := by
  intro l t l' hrun
  obtain ⟨_, _, heq⟩ := Option.map_eq_some_iff.mp hrun
  cases heq
  rfl

/-- The type of a token. -/
theorem setType {t : TokenType} : Still (setType t) := by
  rintro l ⟨⟩ l' hrun
  change (if l.i < lexTokenMax then _ else none) = _ at hrun
  split_ifs at hrun
  cases hrun
  rfl

theorem setToken : Still setToken := by
  rintro l ⟨⟩ l' hrun
  obtain ⟨_, _, heq⟩ := Option.map_eq_some_iff.mp hrun
  cases heq
  rfl

theorem nextToken : Still nextToken := fun _ => .of_run rfl rfl

theorem pushType {t : TokenType} : Still (pushType t) := bind setType fun _ => nextToken

end Still

/-! ## Past the end

No step gives characters back: what is left of the port only shrinks. -/

/-- The computation takes characters from the port and gives none back. -/
def Shrinks (k : LexM α) : Prop := ∀ l, Ensures k l fun _ l' => l'.port.length ≤ l.port.length

namespace Shrinks

theorem bind {k : LexM α} {f : α → LexM β} (h : Shrinks k) (hf : ∀ a, Shrinks (f a)) :
    Shrinks (k >>= f) := fun l =>
  (h l).bind fun a l₁ h₁ => (hf a l₁).mono fun _ _ h₂ => h₂.trans h₁

theorem of_still {k : LexM α} (h : Still k) : Shrinks k := fun l =>
  (h l).mono fun _ _ heq => (congrArg (fun k => k.port.length) heq).le

theorem of_pure {a : α} : Shrinks (pure a) := fun _ => .of_pure le_rfl

/-- A change that is not one of the port. -/
theorem of_modify {f : Lexer → Lexer} (h : ∀ l, (f l).port = l.port) :
    Shrinks (modify f) := fun l =>
  .of_run rfl (congrArg List.length (h l)).le

theorem ite {p : Prop} [Decidable p] {k k' : LexM α} (h : Shrinks k) (h' : Shrinks k') :
    Shrinks (if p then k else k') := by
  split
  · exact h
  · exact h'

theorem get_bind {f : Lexer → LexM α} (h : ∀ l, Shrinks (f l)) : Shrinks (MonadState.get >>= f) :=
  bind (of_still .get) h

/-- One character, or none at the end. -/
theorem getChar : Shrinks getChar := by
  intro l
  refine .of_run rfl ?_
  cases hport : l.port with
  | nil => exact le_rfl
  | cons c port => exact Nat.le_succ _

/-- Two characters, or one. -/
theorem getPrint : Shrinks getPrint :=
  bind getChar fun _ => ite (bind getChar fun _ => of_pure) of_pure

theorem endWord : Shrinks endWord :=
  bind (of_modify fun _ => rfl) fun _ => bind (of_still .putChar) fun _ => of_still .nextToken

theorem beginWord {t : TokenType} : Shrinks (beginWord t) :=
  bind (of_still .setType) fun _ => bind (of_still .setToken) fun _ => of_modify fun _ => rfl

/-- The computation takes a character. -/
theorem bind_lt {k : LexM α} {f : α → LexM β} {i : ℕ}
    (h : Ensures k l fun _ l' => l'.port.length < i) (hf : ∀ a, Shrinks (f a)) :
    Ensures (k >>= f) l fun _ l' => l'.port.length < i :=
  h.bind fun a l₁ h₁ => (hf a l₁).mono fun _ _ h₂ => h₂.trans_lt h₁

/-- As long as there is text, a character of it is taken. -/
theorem getChar_lt (h : l.port ≠ []) :
    Ensures LexM.getChar l fun _ l' => l'.port.length < l.port.length := by
  obtain ⟨c, port, hport⟩ := List.exists_cons_of_ne_nil h
  refine .of_run rfl ?_
  rw [hport]
  exact Nat.lt_succ_self _

theorem getPrint_lt (h : l.port ≠ []) :
    Ensures LexM.getPrint l fun _ l' => l'.port.length < l.port.length :=
  bind_lt (getChar_lt h) fun _ => ite (bind getChar fun _ => of_pure) of_pure

/-- What comes after the first character of the rest of a string. -/
theorem lexString_rest (ih : Shrinks (lexString n)) :
    ∃ f, SchemeOs.lexString (n + 1) = LexM.getPrint >>= f ∧ ∀ r, Shrinks (f r) := by
  refine ⟨_, rfl, fun ⟨c, print⟩ =>
    ite (bind (of_still .putChar) fun _ => ite ?_ ?_) of_pure⟩
  · exact bind getChar fun c => ite (get_bind fun _ => bind (of_still .store) fun _ => ih)
      (bind (of_still .putChar) fun _ => ih)
  · exact ite (get_bind fun _ => of_still .store) ih

theorem lexString : Shrinks (lexString n) := by
  induction n with
  | zero => exact fun _ => .of_failure
  | succ n ih =>
    obtain ⟨f, heq, hf⟩ := lexString_rest ih
    exact heq ▸ bind getPrint hf

/-- A string takes one character at least. -/
theorem lexString_lt (h : l.port ≠ []) :
    Ensures (SchemeOs.lexString n) l fun _ l' => l'.port.length < l.port.length := by
  cases n with
  | zero => exact .of_failure
  | succ n =>
    obtain ⟨f, heq, hf⟩ := lexString_rest (n := n) lexString
    exact heq ▸ bind_lt (getPrint_lt h) hf

theorem lexChar_rest (ih : Shrinks (lexChar n)) :
    ∃ f, SchemeOs.lexChar (n + 1) = LexM.getPrint >>= f ∧ ∀ r, Shrinks (f r) :=
  ⟨_, rfl, fun ⟨_, _⟩ => ite (ite of_pure (bind (of_still .putChar) fun _ => ih)) of_pure⟩

theorem lexChar : Shrinks (lexChar n) := by
  induction n with
  | zero => exact fun _ => .of_failure
  | succ n ih =>
    obtain ⟨f, heq, hf⟩ := lexChar_rest ih
    exact heq ▸ bind getPrint hf

theorem lexSharp : Shrinks (lexSharp n) := by
  refine bind getChar fun c => ?_
  split
  · exact bind (of_still .pushType) fun _ => of_modify fun _ => rfl
  · exact of_still .pushType
  · exact of_still .pushType
  · exact bind (of_still .setType) fun _ => bind (of_still .setToken) fun _ =>
      bind (of_still .nextToken) fun _ => bind lexChar fun _ => of_still .putChar
  all_goals first | exact of_still .pushType | exact of_pure

theorem lexWord : Shrinks (lexWord c) := by
  have hput : Shrinks (putChar c) := of_still .putChar
  unfold SchemeOs.lexWord
  dsimp only
  refine ite ?_ (ite ?_ hput)
  · refine get_bind fun _ => ite (bind beginWord fun _ => hput) (bind (of_still .tokenType) fun _ =>
      ite (bind (of_still .setType) fun _ => ?_) hput)
    exact bind (of_modify fun _ => rfl) fun _ => hput
  · exact get_bind fun _ => ite (bind beginWord fun _ => hput) (bind (of_still .tokenType) fun _ =>
      ite (bind (of_still .setType) fun _ => hput) hput)

theorem lexPoint : Shrinks lexPoint := by
  have hput : Shrinks (putChar '.') := of_still .putChar
  unfold SchemeOs.lexPoint
  dsimp only
  refine get_bind fun _ => ite (bind beginWord fun _ => hput) (get_bind fun _ =>
    ite (bind (of_still .setType) fun _ => hput) (bind (of_still .tokenType) fun _ => ite ?_ hput))
  exact bind (of_modify fun _ => rfl) fun _ => hput

/-- Whatever the first character is. -/
theorem lexSwitch : Shrinks (lexSwitch n c) := by
  unfold SchemeOs.lexSwitch
  dsimp only
  split
  · exact bind (of_still .pushType) fun _ => of_modify fun _ => rfl
  · have hclose : Shrinks (do
        pushType .rightPar
        modify fun l => { l with
          stack := l.stack - 1, finished := l.finished || l.stack - 1 = 0 }) :=
      bind (of_still .pushType) fun _ => of_modify fun _ => rfl
    exact get_bind fun _ => ite (bind endWord fun _ => hclose) hclose
  · have hstring : Shrinks (do setType .string; setToken; nextToken; SchemeOs.lexString n) :=
      bind (of_still .setType) fun _ => bind (of_still .setToken) fun _ =>
        bind (of_still .nextToken) fun _ => lexString
    exact get_bind fun _ => ite (bind endWord fun _ => hstring) hstring
  · exact get_bind fun _ => ite (of_still .putChar) lexSharp
  · exact of_still .pushType
  · exact of_still .pushType
  · exact get_bind fun _ => ite beginWord of_pure
  · exact lexPoint
  · exact lexWord

/-- The loop, by induction on its fuel. -/
theorem loops : ∀ n, Shrinks (lexLoop n) ∧ ∀ c, Shrinks (nextLoop n c)
  | 0 => ⟨fun _ => .of_failure, fun _ _ => .of_failure⟩
  | n + 1 => by
    obtain ⟨hlex, hnext⟩ := loops n
    have hfinish : Shrinks (do if (← get).finished then return () else lexLoop n) :=
      get_bind fun _ => ite of_pure hlex
    refine ⟨bind getChar fun c => ite of_pure (hnext c), fun c => ?_⟩
    rw [nextLoop]
    refine ite ?_ (ite ?_ (bind lexSwitch fun _ => hfinish))
    · refine get_bind fun _ => ite ?_ hlex
      exact bind (of_modify fun _ => rfl) fun _ => bind endWord
        fun _ => get_bind fun _ => ite of_pure hlex
    · refine bind getChar fun c => ite ?_ ?_
      · exact bind (of_still .pushType) fun _ => hfinish
      · exact bind (of_still .pushType) fun _ => hnext c

/-- Past the end the loop takes one more character. -/
theorem lexLoop_lt (h : l.port ≠ []) :
    Ensures (lexLoop n) l fun _ l' => l'.port.length < l.port.length := by
  cases n with
  | zero => exact .of_failure
  | succ n =>
    rw [lexLoop]
    exact bind_lt (getChar_lt h) fun c => ite of_pure ((loops n).2 c)

end Shrinks

/-! ## Within the text

As long as the automaton is outside of a token, the lexer has not gone past the NUL. -/

/-- A character of the text. -/
theorem ensures_getChar (h : l.control = ⟨c :: port, stack, stat, finished⟩) (hc : c ≠ '\x00') :
    Ensures getChar l fun c' l' => c' = c ∧ l'.control = ⟨port, stack, stat, finished⟩ := by
  obtain ⟨hport, hstack, hstat, hfinished⟩ := Control.mk.inj h
  have hget : schemePortGetChar l.port = (c, port) := by
    rw [hport, schemePortGetChar, if_neg hc]
  refine .of_run rfl ⟨congrArg Prod.fst hget, ?_⟩
  rw [← hstack, ← hstat, ← hfinished]
  exact congrArg (fun r => Control.mk r.2 l.stack l.stat l.finished) hget

/-- The NUL at the end. -/
theorem ensures_getChar_nul (h : l.control = ⟨'\x00' :: port, stack, stat, finished⟩) :
    Ensures getChar l fun c l' => c = EOF ∧ l'.control = ⟨port, stack, stat, finished⟩ := by
  obtain ⟨hport, hstack, hstat, hfinished⟩ := Control.mk.inj h
  have hget : schemePortGetChar l.port = (EOF, port) := by
    rw [hport, schemePortGetChar, if_pos rfl]
  refine .of_run rfl ⟨congrArg Prod.fst hget, ?_⟩
  rw [← hstack, ← hstat, ← hfinished]
  exact congrArg (fun r => Control.mk r.2 l.stack l.stat l.finished) hget

/-- What an `isprint` takes from the text: one character or two, or one and the end. -/
theorem ensures_getPrint (h : l.control = ⟨c :: text ++ '\x00' :: rest, stack, stat, finished⟩)
    (hnul : '\x00' ∉ c :: text) : Ensures getPrint l fun r l' =>
      (¬charVal c ≤ 0x7e ∧ r.2 = false ∧
        l'.control = ⟨text ++ '\x00' :: rest, stack, stat, finished⟩) ∨
      (∃ d t, text = d :: t ∧ charVal c ≤ 0x7e ∧ r = (d, decide (charVal d ≥ 0x20)) ∧
        l'.control = ⟨t ++ '\x00' :: rest, stack, stat, finished⟩) ∨
      (text = [] ∧ charVal c ≤ 0x7e ∧ r.2 = false ∧
        l'.control = ⟨rest, stack, stat, finished⟩) := by
  rw [List.mem_cons, not_or] at hnul
  refine .bind (ensures_getChar h (Ne.symm hnul.1)) ?_
  rintro c' l₁ ⟨rfl, h₁⟩
  refine .ite (fun hle => ?_) fun hle => .of_pure (.inl ⟨hle, rfl, h₁⟩)
  cases text with
  | nil =>
    refine .bind (ensures_getChar_nul h₁) ?_
    rintro d l₂ ⟨rfl, h₂⟩
    exact .of_pure (.inr (.inr ⟨rfl, hle, rfl, h₂⟩))
  | cons d t =>
    rw [List.mem_cons, not_or] at hnul
    refine .bind (ensures_getChar h₁ (Ne.symm hnul.2.1)) ?_
    rintro d' l₂ ⟨rfl, h₂⟩
    exact .of_pure (.inr (.inl ⟨d', t, rfl, hle, rfl, h₂⟩))

/-- At the end an `isprint` takes a character from behind it. -/
theorem ensures_getPrint_nul (h : l.control = ⟨'\x00' :: rest, stack, stat, finished⟩)
    (hrest : rest ≠ []) : Ensures getPrint l fun _ l' => l'.port.length < rest.length := by
  refine .bind (ensures_getChar_nul h) ?_
  rintro c l₁ ⟨rfl, h₁⟩
  have hport : l₁.port = rest := congrArg Control.port h₁
  refine .ite (fun _ => ?_) fun hle => absurd (by decide) hle
  exact .bind (hport ▸ Shrinks.getChar_lt (hport ▸ hrest)) fun _ _ hlt => .of_pure hlt

/-- Where the lexer is, after a part of a text that comes to the place `q`: further on in the text,
past its end, or done. -/
inductive Follows (rest : List Char) (q : Place) (text : List Char) (l : Lexer) : Prop
  | within {post stack stat} (hnul : '\x00' ∉ post)
      (h : l.control = ⟨post ++ '\x00' :: rest, stack, stat, false⟩)
      (hscan : q.scan text = (Place.main stack stat).scan post)
  | past (h : (q.scan text).Inside)
      (hport : l.port.length < rest.length ∨ l.port = rest ∧ l.finished = false)
  | done (h : q.scan text = .done) (hport : rest.length ≤ l.port.length) (hfinished : l.finished)

theorem Follows.congr {q q' : Place} {text' : List Char} (h : Follows rest q text l)
    (heq : q'.scan text' = q.scan text) : Follows rest q' text' l := by
  cases h with
  | within hnul h hscan => exact .within hnul h (heq.trans hscan)
  | past h hport => exact .past (heq ▸ h) hport
  | done h hport hfinished => exact .done (heq.trans h) hport hfinished

/-- What follows a text is told by the control alone. -/
theorem Follows.still {q : Place} (h : Follows rest q text l) (heq : l'.control = l.control) :
    Follows rest q text l' := by
  have hport : l'.port = l.port := congrArg Control.port heq
  have hfinished : l'.finished = l.finished := congrArg Control.finished heq
  cases h with
  | within hnul h hscan => exact .within hnul (heq.trans h) hscan
  | past h hor => exact .past h (by rwa [hport, hfinished])
  | done h hle hf => exact .done h (by rwa [hport]) (by rwa [hfinished])

/-- The automaton follows the loop over a string. -/
theorem ensures_lexString (hrest : rest ≠ []) (hnul : '\x00' ∉ text)
    (h : l.control = ⟨text ++ '\x00' :: rest, stack, false, false⟩) :
    Ensures (lexString n) l fun _ l' => Follows rest (.string stack) text l' := by
  induction n generalizing l text with
  | zero => exact .of_failure
  | succ n ih =>
    cases text with
    | nil =>
      obtain ⟨f, heq, hf⟩ := Shrinks.lexString_rest (n := n) Shrinks.lexString
      rw [heq]
      exact (Shrinks.bind_lt (ensures_getPrint_nul h hrest) hf).mono fun _ _ hlt =>
        .past trivial (.inl hlt)
    | cons c text =>
      rw [lexString]
      refine .bind (ensures_getPrint h hnul) ?_
      rintro ⟨d, print⟩ l₁ (⟨hc, hprint, h₁⟩ | ⟨d, t, rfl, hc, heq, h₁⟩ | ⟨rfl, hc, hprint, h₁⟩)
      · obtain rfl : print = false := hprint
        refine .of_pure (.within (List.not_mem_of_not_mem_cons hnul) h₁ ?_)
        rw [Place.scan_cons, Place.next, if_neg hc]
      · obtain ⟨rfl, rfl⟩ := Prod.mk.inj heq
        dsimp only
        have hnul' := List.not_mem_of_not_mem_cons (List.not_mem_of_not_mem_cons hnul)
        by_cases hprint : charVal d ≥ 0x20
        · rw [if_pos (decide_eq_true hprint)]
          refine .bind (Still.putChar l₁) ?_
          rintro ⟨⟩ l₂ h₂
          rw [h₁] at h₂
          refine .ite (fun hescape => ?_) fun hescape => .ite (fun hquote => ?_) fun hquote => ?_
          · subst hescape
            cases t with
            | nil =>
              refine .bind (ensures_getChar_nul h₂) ?_
              rintro e l₃ ⟨rfl, h₃⟩
              refine .ite (fun h => absurd h (by decide)) fun _ => ?_
              refine .bind (Still.putChar l₃) ?_
              rintro ⟨⟩ l₄ h₄
              have hport : l₄.port = rest := congrArg Control.port (h₄.trans h₃)
              refine (hport ▸ Shrinks.lexString_lt (hport ▸ hrest)).mono fun _ _ hlt =>
                .past ?_ (.inl hlt)
              rw [Place.scan_cons, Place.next, if_pos hc]
              exact trivial
            | cons e t =>
              rw [List.mem_cons, not_or] at hnul'
              have hscan : (Place.string stack).scan (c :: '\\' :: e :: t) =
                  (Place.string stack).scan t := by
                rw [Place.scan_cons, Place.next, if_pos hc]
                rfl
              refine .bind (ensures_getChar h₂ (Ne.symm hnul'.1)) ?_
              rintro e' l₃ ⟨rfl, h₃⟩
              refine .ite (fun _ => ?_) fun _ => ?_
              · refine .get_bind (.bind (Still.store l₃) ?_)
                rintro ⟨⟩ l₄ h₄
                exact (ih hnul'.2 (h₄.trans h₃)).mono fun _ _ h => h.congr hscan
              · refine .bind (Still.putChar l₃) ?_
                rintro ⟨⟩ l₄ h₄
                exact (ih hnul'.2 (h₄.trans h₃)).mono fun _ _ h => h.congr hscan
          · subst hquote
            refine .get_bind ((Still.store l₂).mono ?_)
            rintro ⟨⟩ l₃ h₃
            refine .within hnul' (h₃.trans h₂) ?_
            rw [Place.scan_cons, Place.next, if_pos hc]
            rfl
          · refine (ih hnul' h₂).mono fun _ _ h => h.congr ?_
            rw [Place.scan_cons, Place.scan_cons, Place.next, if_pos hc, Place.next,
              if_neg (not_or.mpr ⟨Int.not_lt.mpr hprint, hquote⟩), if_neg hescape]
        · rw [if_neg (by simpa using hprint)]
          refine .of_pure (.within hnul' h₁ ?_)
          rw [Place.scan_cons, Place.scan_cons, Place.next, if_pos hc, Place.next,
            if_pos (.inl (Int.not_le.mp hprint))]
      · obtain rfl : print = false := hprint
        refine .of_pure (.past ?_ (.inr ⟨congrArg Control.port h₁, congrArg Control.finished h₁⟩))
        rw [Place.scan_cons, Place.next, if_pos hc]
        exact trivial

/-- And the loop over a character. -/
theorem ensures_lexChar (hrest : rest ≠ []) (hnul : '\x00' ∉ text)
    (h : l.control = ⟨text ++ '\x00' :: rest, stack, false, false⟩) :
    Ensures (lexChar n) l fun _ l' => Follows rest (.char stack) text l' := by
  induction n generalizing l text with
  | zero => exact .of_failure
  | succ n ih =>
    cases text with
    | nil =>
      obtain ⟨f, heq, hf⟩ := Shrinks.lexChar_rest (n := n) Shrinks.lexChar
      rw [heq]
      exact (Shrinks.bind_lt (ensures_getPrint_nul h hrest) hf).mono fun _ _ hlt =>
        .past trivial (.inl hlt)
    | cons c text =>
      rw [lexChar]
      refine .bind (ensures_getPrint h hnul) ?_
      rintro ⟨d, print⟩ l₁ (⟨hc, hprint, h₁⟩ | ⟨d, t, rfl, hc, heq, h₁⟩ | ⟨rfl, hc, hprint, h₁⟩)
      · obtain rfl : print = false := hprint
        refine .of_pure (.within (List.not_mem_of_not_mem_cons hnul) h₁ ?_)
        rw [Place.scan_cons, Place.next, if_neg hc]
      · obtain ⟨rfl, rfl⟩ := Prod.mk.inj heq
        dsimp only
        have hnul' := List.not_mem_of_not_mem_cons (List.not_mem_of_not_mem_cons hnul)
        have hnext : charVal d < 0x20 ∨ isspace d = true →
            (Place.char stack).scan (c :: d :: t) = (Place.main stack false).scan t := by
          intro hor
          rw [Place.scan_cons, Place.scan_cons, Place.next, if_pos hc, Place.next, if_pos hor]
        by_cases hprint : charVal d ≥ 0x20
        · rw [if_pos (decide_eq_true hprint)]
          refine .ite (fun hspace => .of_pure ?_) fun hspace => .bind (Still.putChar l₁) ?_
          · refine .within hnul' h₁ (hnext (.inr (hspace.resolve_right fun heof => ?_)))
            subst heof
            exact absurd hprint (by decide)
          · rintro ⟨⟩ l₂ h₂
            refine (ih hnul' (h₂.trans h₁)).mono fun _ _ h => h.congr ?_
            rw [Place.scan_cons, Place.scan_cons, Place.next, if_pos hc, Place.next, if_neg]
            exact not_or.mpr ⟨Int.not_lt.mpr hprint, (not_or.mp hspace).1⟩
        · rw [if_neg (by simpa using hprint)]
          exact .of_pure (.within hnul' h₁ (hnext (.inl (Int.not_le.mp hprint))))
      · obtain rfl : print = false := hprint
        refine .of_pure (.past ?_ (.inr ⟨congrArg Control.port h₁, congrArg Control.finished h₁⟩))
        rw [Place.scan_cons, Place.next, if_pos hc]
        exact trivial

theorem ensures_modify {f : Lexer → Lexer} {k : Control} (h : (f l).control = k) :
    Ensures (modify f) l fun _ l' => l'.control = k :=
  .of_run rfl h

theorem ensures_endWord (h : l.control = ⟨port, stack, stat, finished⟩) :
    Ensures endWord l fun _ l' => l'.control = ⟨port, stack, false, finished⟩ := by
  obtain ⟨rfl, rfl, rfl, rfl⟩ := Control.mk.inj h
  refine .bind (ensures_modify rfl) ?_
  rintro ⟨⟩ l₁ h₁
  refine .bind (Still.putChar l₁) ?_
  rintro ⟨⟩ l₂ h₂
  exact (Still.nextToken l₂).mono fun _ _ h₃ => h₃.trans (h₂.trans h₁)

theorem ensures_beginWord {t : TokenType} (h : l.control = ⟨port, stack, stat, finished⟩) :
    Ensures (beginWord t) l fun _ l' => l'.control = ⟨port, stack, true, finished⟩ := by
  refine .bind (Still.setType l) ?_
  rintro ⟨⟩ l₁ h₁
  refine .bind (Still.setToken l₁) ?_
  rintro ⟨⟩ l₂ h₂
  obtain ⟨hport, hstack, -, hfinished⟩ := Control.mk.inj (h₂.trans (h₁.trans h))
  exact ensures_modify (by rw [Lexer.control, hport, hstack, hfinished])

/-- And what comes after a `#`. -/
theorem ensures_lexSharp (hrest : rest ≠ []) (hnul : '\x00' ∉ text)
    (h : l.control = ⟨text ++ '\x00' :: rest, stack, false, false⟩) :
    Ensures (lexSharp n) l fun _ l' => Follows rest (.sharp stack) text l' := by
  cases text with
  | nil =>
    refine .bind (ensures_getChar_nul h) ?_
    rintro c l₁ ⟨rfl, h₁⟩
    exact .of_pure (.past trivial
      (.inr ⟨congrArg Control.port h₁, congrArg Control.finished h₁⟩))
  | cons c text =>
    rw [List.mem_cons, not_or] at hnul
    refine .bind (ensures_getChar h (Ne.symm hnul.1)) ?_
    rintro c' l₁ ⟨rfl, h₁⟩
    have hpush : ∀ {t}, c' ≠ '(' → c' ≠ '\\' →
        Ensures (pushType t) l₁ fun _ l' => Follows rest (.sharp stack) (c' :: text) l' := by
      intro t hopen hchar
      refine (Still.pushType l₁).mono fun _ l' h' => .within hnul.2 (h'.trans h₁) ?_
      rw [Place.scan_cons, Place.next, if_neg hopen, if_neg hchar]
    split
    · refine .bind (Still.pushType l₁) ?_
      rintro ⟨⟩ l₂ h₂
      obtain ⟨hport, hstack, hstat, hfinished⟩ := Control.mk.inj (h₂.trans h₁)
      refine (ensures_modify (k := ⟨text ++ '\x00' :: rest, stack + 1, false, false⟩) ?_).mono
        fun _ _ h' => .within hnul.2 h' rfl
      rw [Lexer.control, hport, hstack, hstat, hfinished]
      rfl
    · exact hpush (by decide) (by decide)
    · exact hpush (by decide) (by decide)
    · refine .bind (Still.setType l₁) ?_
      rintro ⟨⟩ l₂ h₂
      refine .bind (Still.setToken l₂) ?_
      rintro ⟨⟩ l₃ h₃
      refine .bind (Still.nextToken l₃) ?_
      rintro ⟨⟩ l₄ h₄
      refine .bind (ensures_lexChar hrest hnul.2 (h₄.trans (h₃.trans (h₂.trans h₁)))) ?_
      rintro ⟨⟩ l₅ hfollows
      exact (Still.putChar l₅).mono fun _ _ h' => (hfollows.still h').congr rfl
    · exact hpush (by decide) (by decide)
    · exact hpush (by decide) (by decide)
    · exact hpush (by decide) (by decide)
    · exact hpush (by decide) (by decide)
    · exact hpush (by decide) (by decide)
    · exact hpush (by decide) (by decide)
    · next hopen _ _ hchar _ _ _ _ _ _ =>
      refine .of_pure (.within hnul.2 h₁ ?_)
      rw [Place.scan_cons, Place.next, if_neg hopen, if_neg hchar]

theorem ensures_putChar (h : l.control = ⟨port, stack, stat, finished⟩) :
    Ensures (putChar c) l fun _ l' => l'.control = ⟨port, stack, stat, finished⟩ :=
  (Still.putChar l).mono fun _ _ h' => h'.trans h

/-- The first character of a word. -/
theorem ensures_startWord {t : TokenType} (h : l.control = ⟨port, stack, stat, finished⟩) :
    Ensures (do beginWord t; putChar c) l
      fun _ l' => l'.control = ⟨port, stack, true, finished⟩ :=
  .bind (ensures_beginWord h) fun _ _ h₁ => ensures_putChar h₁

/-- In a word. -/
theorem control_of_stat (h : l.control = ⟨port, stack, stat, finished⟩) (hne : ¬l.stat = false) :
    l.control = ⟨port, stack, true, finished⟩ := by
  have hstat : l.stat = stat := congrArg Control.stat h
  rw [h, ← hstat, eq_true_of_ne_false hne]

/-- A word is open after a character that belongs to one. -/
theorem ensures_lexWord (h : l.control = ⟨port, stack, stat, finished⟩) :
    Ensures (lexWord c) l fun _ l' =>
      l'.control = ⟨port, stack, stat || isdigit c || isprint c, finished⟩ := by
  unfold lexWord
  dsimp only
  refine .ite (fun hdigit => .get_bind ?_) fun hdigit => .ite (fun hprint => .get_bind ?_)
    fun hprint => ?_
  · rw [hdigit, Bool.or_true, Bool.true_or]
    refine .ite (fun _ => ensures_startWord h) fun hne => ?_
    refine .bind (Still.tokenType l) fun t l₁ h₁ => ?_
    have h₁' := h₁.trans (control_of_stat h hne)
    refine .ite (fun _ => .bind (Still.setType l₁) fun _ l₂ h₂ => ?_) fun _ => ensures_putChar h₁'
    exact .bind (ensures_modify (h₂.trans h₁')) fun _ _ h₃ => ensures_putChar h₃
  · rw [hprint, Bool.or_true]
    refine .ite (fun _ => ensures_startWord h) fun hne => ?_
    refine .bind (Still.tokenType l) fun t l₁ h₁ => ?_
    have h₁' := h₁.trans (control_of_stat h hne)
    exact .ite (fun _ => .bind (Still.setType l₁) fun _ l₂ h₂ => ensures_putChar (h₂.trans h₁'))
      fun _ => ensures_putChar h₁'
  · rw [eq_false_of_ne_true hdigit, eq_false_of_ne_true hprint, Bool.or_false,
      Bool.or_false]
    exact ensures_putChar h

theorem ensures_lexPoint (h : l.control = ⟨port, stack, stat, finished⟩) :
    Ensures lexPoint l fun _ l' => l'.control = ⟨port, stack, true, finished⟩ := by
  unfold lexPoint
  dsimp only
  refine .get_bind (.ite (fun _ => ensures_startWord h) fun hne =>
    .get_bind (.ite (fun _ => ?_) fun _ => ?_))
  · exact .bind (Still.setType l) fun _ l₁ h₁ => ensures_putChar (h₁.trans (control_of_stat h hne))
  · refine .bind (Still.tokenType l) fun t l₁ h₁ => ?_
    have h₁' := h₁.trans (control_of_stat h hne)
    exact .ite (fun _ => .bind (ensures_modify h₁') fun _ _ h₂ => ensures_putChar h₂)
      fun _ => ensures_putChar h₁'

/-- One character between tokens or in a word. -/
theorem ensures_lexSwitch (hrest : rest ≠ []) (hnul : '\x00' ∉ text)
    (h : l.control = ⟨text ++ '\x00' :: rest, stack, stat, false⟩) (hspace : isspace c = false) :
    Ensures (lexSwitch n c) l fun _ l' => Follows rest (Place.nextMain stack stat c) text l' := by
  have hstat : l.stat = stat := congrArg Control.stat h
  unfold lexSwitch
  dsimp only
  split
  · refine .bind (Still.pushType l) fun _ l₁ h₁ => ?_
    obtain ⟨hport, hstack, -, hfinished⟩ := Control.mk.inj (h₁.trans h)
    refine (ensures_modify (k := ⟨text ++ '\x00' :: rest, stack + 1, false, false⟩) ?_).mono
      fun _ _ h' => .within hnul h' rfl
    rw [Lexer.control, hport, hstack, hfinished]
  · have hclose : ∀ {l : Lexer}, l.control = ⟨text ++ '\x00' :: rest, stack, false, false⟩ →
        Ensures (do
          pushType .rightPar
          modify fun l => { l with
            stack := l.stack - 1, finished := l.finished || l.stack - 1 = 0 }) l
          fun _ l' => Follows rest (Place.nextMain stack stat ')') text l' := by
      intro l h
      refine .bind (Still.pushType l) fun _ l₁ h₁ => ?_
      obtain ⟨hport, hstack, hstat, hfinished⟩ := Control.mk.inj (h₁.trans h)
      refine (ensures_modify (k := ⟨text ++ '\x00' :: rest, stack - 1, false, stack - 1 = 0⟩)
        ?_).mono fun _ l' h' => ?_
      · rw [Lexer.control, hport, hstack, hstat, hfinished, Bool.false_or]
      · have hnext : Place.nextMain stack stat ')' =
            if stack - 1 = 0 then .done else .main (stack - 1) false := rfl
        by_cases hzero : stack - 1 = 0
        · rw [if_pos hzero] at hnext
          refine .done ((congrArg (·.scan text) hnext).trans Place.scan_done) ?_ ?_
          · rw [show l'.port = _ from congrArg Control.port h', List.length_append]
            exact (Nat.le_succ _).trans (Nat.le_add_left _ _)
          · exact (congrArg Control.finished h').trans (decide_eq_true hzero)
        · rw [if_neg hzero] at hnext
          exact .within hnul (h'.trans (by rw [decide_eq_false hzero]))
            (congrArg (·.scan text) hnext)
    refine .get_bind (.ite (fun _ => .bind (ensures_endWord h) fun _ l₁ h₁ => hclose h₁)
      fun hne => hclose ?_)
    rw [h, ← hstat, eq_false_of_ne_true hne]
  · have hstring : ∀ {l : Lexer}, l.control = ⟨text ++ '\x00' :: rest, stack, false, false⟩ →
        Ensures (do setType .string; setToken; nextToken; lexString n) l
          fun _ l' => Follows rest (Place.nextMain stack stat '"') text l' := by
      intro l h
      refine .bind (Still.setType l) fun _ l₁ h₁ => .bind (Still.setToken l₁) fun _ l₂ h₂ =>
        .bind (Still.nextToken l₂) fun _ l₃ h₃ => ?_
      exact ensures_lexString hrest hnul (h₃.trans (h₂.trans (h₁.trans h)))
    refine .get_bind (.ite (fun _ => .bind (ensures_endWord h) fun _ l₁ h₁ => hstring h₁)
      fun hne => hstring ?_)
    rw [h, ← hstat, eq_false_of_ne_true hne]
  · refine .get_bind (.ite (fun htrue => ?_) fun hne => ?_)
    · obtain rfl := hstat.symm.trans htrue
      exact (ensures_putChar h).mono fun _ _ h' => .within hnul h' rfl
    · obtain rfl := hstat.symm.trans (eq_false_of_ne_true hne)
      exact (ensures_lexSharp hrest hnul h).mono fun _ _ h' => h'.congr rfl
  · exact (Still.pushType l).mono fun _ _ h' => .within hnul (h'.trans h) rfl
  · exact (Still.pushType l).mono fun _ _ h' => .within hnul (h'.trans h) rfl
  · refine .get_bind (.ite (fun _ => ?_) fun hne => ?_)
    · exact (ensures_beginWord h).mono fun _ _ h' => .within hnul h' rfl
    · obtain rfl := hstat.symm.trans (eq_true_of_ne_false hne)
      exact .of_pure (.within hnul h rfl)
  · refine (ensures_lexPoint h).mono fun _ _ h' => .within hnul h' rfl
  · next hopen hclose hstring hsharp hquote hback hat hpoint =>
    refine (ensures_lexWord h).mono fun _ _ h' => .within hnul h' ?_
    rw [Place.nextMain, if_neg (Bool.eq_false_iff.mp hspace), if_neg hopen, if_neg hclose,
      if_neg hstring, if_neg hsharp, if_neg (not_or.mpr ⟨hquote, hback⟩),
      if_neg (not_or.mpr ⟨hat, hpoint⟩)]

/-! ## The loops -/

/-- Nothing behind the NUL is taken, or the text ends inside of something. -/
def StaysWithin (rest : List Char) (q : Place) (text : List Char) (l : Lexer) : Prop :=
  rest.length ≤ l.port.length ↔ ¬(q.scan text).Inside

theorem StaysWithin.of_lt {q : Place} (h : (q.scan text).Inside)
    (hlt : l.port.length < rest.length) : StaysWithin rest q text l :=
  ⟨fun hle => absurd hlt (Nat.not_lt.mpr hle), fun hnot => absurd h hnot⟩

theorem StaysWithin.of_le {q : Place} (h : ¬(q.scan text).Inside)
    (hle : rest.length ≤ l.port.length) : StaysWithin rest q text l :=
  ⟨fun _ => h, fun _ => hle⟩

/-- The lexer is still in front of the NUL. -/
theorem length_le (h : l.control = ⟨text ++ '\x00' :: rest, stack, stat, finished⟩) :
    rest.length ≤ l.port.length := by
  rw [show l.port = _ from congrArg Control.port h, List.length_append]
  exact (Nat.le_succ _).trans (Nat.le_add_left _ _)

/-- The end of a round of the loop. -/
theorem ensures_finish (hrest : rest ≠ []) {q : Place} (h : Follows rest q text l)
    (hlex : ∀ {l text stack stat}, '\x00' ∉ text →
      l.control = ⟨text ++ '\x00' :: rest, stack, stat, false⟩ →
        Ensures (lexLoop n) l fun _ l' => StaysWithin rest (.main stack stat) text l') :
    Ensures (do if (← get).finished then return () else lexLoop n) l
      fun _ l' => StaysWithin rest q text l' := by
  refine .get_bind ?_
  cases h with
  | within hnul h hscan =>
    rw [show l.finished = false from congrArg Control.finished h]
    refine (hlex hnul h).mono fun _ l' hstays => ?_
    rwa [StaysWithin, hscan]
  | past hinside hor =>
    rcases hor with hlt | ⟨hport, hfinished⟩
    · refine .ite (fun _ => .of_pure (.of_lt hinside hlt)) fun _ => ?_
      exact ((Shrinks.loops n).1 l).mono fun _ _ hle => .of_lt hinside (hle.trans_lt hlt)
    · rw [hfinished]
      exact (hport ▸ Shrinks.lexLoop_lt (hport ▸ hrest)).mono fun _ _ hlt => .of_lt hinside hlt
  | done hdone hle hfinished =>
    rw [if_pos hfinished]
    exact .of_pure (.of_le (hdone ▸ id) hle)

/-- After a comma the end of the text is taken for a character. -/
theorem ensures_nextLoop_eof (hrest : rest ≠ []) (h : l.control = ⟨rest, stack, stat, false⟩) :
    Ensures (nextLoop n EOF) l fun _ l' => l'.port.length < rest.length := by
  cases n with
  | zero => exact .of_failure
  | succ n =>
    rw [nextLoop, if_neg (by decide), if_neg (by decide)]
    have hswitch : lexSwitch n EOF = lexWord EOF := rfl
    rw [hswitch]
    refine .bind (ensures_lexWord h) fun _ l₁ h₁ => .get_bind ?_
    have hport : l₁.port = rest := congrArg Control.port h₁
    rw [show l₁.finished = false from congrArg Control.finished h₁]
    exact hport ▸ Shrinks.lexLoop_lt (hport ▸ hrest)

/-- **The automaton follows the lexer**, from the state of the control on. -/
theorem ensures_loops (hrest : rest ≠ []) : ∀ n,
    (∀ {l text stack stat}, '\x00' ∉ text →
      l.control = ⟨text ++ '\x00' :: rest, stack, stat, false⟩ →
        Ensures (lexLoop n) l fun _ l' => StaysWithin rest (.main stack stat) text l') ∧
    (∀ {l text stack stat} c, '\x00' ∉ text →
      l.control = ⟨text ++ '\x00' :: rest, stack, stat, false⟩ →
        Ensures (nextLoop n c) l fun _ l' => StaysWithin rest
          (if c = ',' then .comma stack stat else .nextMain stack stat c) text l')
  | 0 => ⟨fun _ _ => .of_failure, fun _ _ _ => .of_failure⟩
  | n + 1 => by
    obtain ⟨hlex, hnext⟩ := ensures_loops hrest n
    constructor
    · intro l text stack stat hnul h
      rw [lexLoop]
      cases text with
      | nil =>
        refine .bind (ensures_getChar_nul h) ?_
        rintro c l₁ ⟨rfl, h₁⟩
        rw [if_pos rfl]
        exact .of_pure (.of_le id (congrArg List.length (congrArg Control.port h₁)).ge)
      | cons c text =>
        rw [List.mem_cons, not_or] at hnul
        refine .bind (ensures_getChar h (Ne.symm hnul.1)) ?_
        rintro c' l₁ ⟨rfl, h₁⟩
        refine .ite (fun heof => .of_pure (.of_le ?_ (length_le h₁))) fun heof => ?_
        · rw [Place.scan_cons, Place.next, if_pos heof, Place.scan_done]
          exact id
        · refine (hnext c' hnul.2 h₁).mono fun _ l' hstays => ?_
          rwa [StaysWithin, Place.scan_cons, Place.next, if_neg heof]
    · intro l text stack stat c hnul h
      have hstat : l.stat = stat := congrArg Control.stat h
      rw [nextLoop]
      refine .ite (fun hspace => ?_) fun hspace => .ite (fun hcomma => ?_) fun hcomma => ?_
      · have hcomma : c ≠ ',' := by
          rintro rfl
          exact absurd hspace (by decide)
        rw [if_neg hcomma, Place.nextMain, if_pos hspace]
        refine .get_bind (.ite (fun htrue => ?_) fun hne => ?_)
        · refine .bind (ensures_modify h) fun _ l₁ h₁ => .bind (ensures_endWord h₁)
            fun _ l₂ h₂ => ?_
          have hstack : l₂.stack = stack := congrArg Control.stack h₂
          have htrue' : stat = true := hstat.symm.trans htrue
          refine .get_bind (.ite (fun hzero => ?_) fun hzero => ?_)
          · rw [if_pos ⟨htrue', hstack.symm.trans hzero⟩]
            exact .of_pure (.of_le (by rw [Place.scan_done]; exact id) (length_le h₂))
          · rw [if_neg fun hand => hzero (hstack.trans hand.2)]
            exact hlex hnul h₂
        · have hfalse : stat = false := hstat.symm.trans (eq_false_of_ne_true hne)
          subst hfalse
          rw [if_neg (fun hand => Bool.false_ne_true hand.1)]
          exact hlex hnul h
      · rw [if_pos hcomma]
        cases text with
        | nil =>
          refine .bind (ensures_getChar_nul h) ?_
          rintro d l₁ ⟨rfl, h₁⟩
          refine .ite (fun hat => absurd hat (by decide)) fun _ => ?_
          refine .bind (Still.pushType l₁) fun _ l₂ h₂ => ?_
          exact (ensures_nextLoop_eof hrest (h₂.trans h₁)).mono fun _ _ hlt => .of_lt trivial hlt
        | cons d text =>
          rw [List.mem_cons, not_or] at hnul
          refine .bind (ensures_getChar h (Ne.symm hnul.1)) ?_
          rintro d' l₁ ⟨rfl, h₁⟩
          refine .ite (fun hat => ?_) fun hat => .bind (Still.pushType l₁) fun _ l₂ h₂ => ?_
          · refine .bind (Still.pushType l₁) fun _ l₂ h₂ => ?_
            refine ensures_finish hrest (.within hnul.2 (h₂.trans h₁) ?_) hlex
            rw [Place.scan_cons, Place.next, if_pos hat]
          · refine (hnext d' hnul.2 (h₂.trans h₁)).mono fun _ l' hstays => ?_
            rwa [StaysWithin, Place.scan_cons, Place.next, if_neg hat]
      · rw [if_neg hcomma]
        exact .bind (ensures_lexSwitch hrest hnul h (eq_false_of_ne_true hspace))
          fun _ l₁ h₁ => ensures_finish hrest h₁ hlex

/-- **The lexer stays within a text** exactly when the text does not end inside of a string, a
character, after a `#` or after a comma. -/
theorem staysWithin_iff {buffers buffers' : Buffers} (hnul : '\x00' ∉ text) (hrest : rest ≠ [])
    (hrun : makeTokenSeq n buffers (text ++ '\x00' :: rest) = some (buffers', port)) :
    rest.length ≤ port.length ↔ ¬((Place.main 0 false).scan text).Inside := by
  obtain ⟨⟨⟨⟩, l'⟩, hlex, heq⟩ := Option.map_eq_some_iff.mp hrun
  obtain ⟨-, rfl⟩ := Prod.mk.inj heq
  have hend : Ensures (lexTokens n) ⟨buffers, text ++ '\x00' :: rest, 0, 0, 0, false, false, false⟩
      fun _ l' => StaysWithin rest (.main 0 false) text l' := by
    refine .bind ((ensures_loops hrest n).1 hnul rfl) fun _ l₁ hstays => ?_
    have hstill : ∀ {k : LexM Unit}, Still k →
        Ensures k l₁ fun _ l' => StaysWithin rest (.main 0 false) text l' := by
      intro k hk
      refine (hk l₁).mono fun _ l' h' => ?_
      rwa [StaysWithin, show l'.port = l₁.port from congrArg Control.port h']
    exact .get_bind (.ite (fun _ => hstill (.bind .get fun _ => .bind .store fun _ =>
      .bind .nextToken fun _ => .setType)) fun _ => hstill .setType)
  exact hend () l' hlex

/-- The lexer stays within `(a)`, and not within `("a`, which ends inside of a string. -/
theorem staysWithin_iff_word :
    (∃ buffers' port,
      makeTokenSeq 9 Buffers.init (['(', 'a', ')'] ++ '\x00' :: ['b']) = some (buffers', port) ∧
        ['b'].length ≤ port.length) ∧
    ∃ buffers' port,
      makeTokenSeq 9 Buffers.init (['(', '"', 'a'] ++ '\x00' :: ['b']) = some (buffers', port) ∧
        port.length < ['b'].length := by
  obtain ⟨⟨buffers, port⟩, hrun⟩ : ∃ r, makeTokenSeq 9 Buffers.init
      (['(', 'a', ')'] ++ '\x00' :: ['b']) = some r :=
    Option.isSome_iff_exists.mp (by decide +kernel)
  obtain ⟨⟨buffers', port'⟩, hrun'⟩ : ∃ r, makeTokenSeq 9 Buffers.init
      (['(', '"', 'a'] ++ '\x00' :: ['b']) = some r :=
    Option.isSome_iff_exists.mp (by decide +kernel)
  refine ⟨⟨buffers, port, hrun, ?_⟩, buffers', port', hrun', Nat.lt_of_not_le fun hle => ?_⟩
  · exact (staysWithin_iff (by decide) (List.cons_ne_nil _ _) hrun).mpr (by decide)
  · exact (staysWithin_iff (by decide) (List.cons_ne_nil _ _) hrun').mp hle (by decide)

/-- A `#` at the end of the text. -/
theorem not_staysWithin_sharp : ¬∀ (n : ℕ) (buffers buffers' : Buffers)
    (text rest port : List Char),
    '\x00' ∉ text → rest ≠ [] →
      makeTokenSeq n buffers (text ++ '\x00' :: rest) = some (buffers', port) →
        rest.length ≤ port.length := by
  intro h
  obtain ⟨⟨buffers', port⟩, hrun, hport⟩ : ∃ r, makeTokenSeq 9 Buffers.init
      (['#'] ++ '\x00' :: [' ']) = some r ∧ r.2 = [] := by
    refine ⟨(makeTokenSeq 9 Buffers.init (['#'] ++ '\x00' :: [' '])).get
      (by decide +kernel), ?_, ?_⟩
    · exact (Option.some_get _).symm
    · decide +kernel
  have hle := h 9 Buffers.init buffers' ['#'] [' '] port (by decide) (List.cons_ne_nil _ _) hrun
  obtain rfl : port = [] := hport
  exact absurd hle (by decide)

end SchemeOs
