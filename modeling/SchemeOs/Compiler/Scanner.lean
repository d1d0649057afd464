import Mathlib
import SchemeOs.Compiler.Parsed
import SchemeOs.Compiler.Scmlex
import SchemeOs.Machinery.Lexing

/-!
# Compiler/Scanner — the tokens of a text

`alexScanTokens` takes the longest word that a rule of `Scmlex.x` accepts, and of the rules that
accept it the first.  The lists of tokens that it makes are those whose tokens are `Lexable`
(`scanned_iff`): each has a text, by which the programs that come of texts are known
(`readProgram_iff`).
-/

namespace SchemeOs.Compiler.Scanner

open Lexing

variable {c : Char} {w u cs s : List Char} {t : Token} {ts : List Token}
  {r : LexRule Char Token} {l : List Char × Token} {es : List Expr} {n : ℤ}

/-! ## The rules -/

/-- `$white`. -/
def white : List Char := [' ', '\t', '\n', '\r', '\x0b', '\x0c']

/-- `";".*`. -/
def isComment : List Char → Bool
  | [] => false
  | c :: cs => c == ';' && cs.all (· != '\n')

/-- `$white+`. -/
def isBlank (w : List Char) : Bool := !w.isEmpty && w.all (white.contains ·)

/-- The rules for fixed words, in the order of the source. -/
def literals : List (List Char × Token) :=
  [("(".toList, .leftpar), (")".toList, .rightpar), ("#(".toList, .leftsharpar),
    (".".toList, .point), ("'".toList, .quote), ("else".toList, .else), ("=>".toList, .rightarrow),
    ("define".toList, .define), (['\x60'], .quasiquote), ("quasiquote".toList, .quasiquote),
    ("unquote".toList, .unquote), (",".toList, .unquote),
    ("unquote-splicing".toList, .unquotesplicing), (",@".toList, .unquotesplicing),
    ("quote".toList, .expQuote), ("lambda".toList, .expLambda), ("if".toList, .expIf),
    ("set!".toList, .expSet), ("begin".toList, .expBegin), ("cond".toList, .expCond),
    ("and".toList, .expAnd), ("or".toList, .expOr), ("case".toList, .expCase),
    ("let".toList, .let), ("let*".toList, .letstar), ("letrec".toList, .letrec),
    ("do".toList, .do), ("delay".toList, .delay)]

/-- `@char`. -/
def isCharacter (w : List Char) : Bool :=
  w.length == 3 && w.take 2 == ['#', '\\'] && !w.contains '\n' ||
    w == "#\\space".toList || w == "#\\newline".toList

/-- The rest of a `@string`, in an escape or not. -/
def isStringTail (escaped : Bool) : List Char → Bool
  | [] => false
  | c :: cs =>
    if escaped then (c == '"' || c == '\\') && isStringTail false cs
    else if c = '\\' then isStringTail true cs
    else if c = '"' then cs.isEmpty
    else c != '\n' && isStringTail false cs

/-- `@string`. -/
def isString : List Char → Bool
  | [] => false
  | c :: cs => c == '"' && isStringTail false cs

/-- `@uinteger10`. -/
def isUinteger10 (w : List Char) : Bool :=
  !(w.takeWhile Char.isDigit).isEmpty && (w.dropWhile Char.isDigit).all (· == '#')

/-- `@sign @uinteger10`. -/
def isNumber : List Char → Bool
  | [] => false
  | c :: cs => isUinteger10 (if c = '+' ∨ c = '-' then cs else c :: cs)

/-- The action of `@char`. -/
def character (w : List Char) : Option Char :=
  if w = "#\\space".toList then some ' '
  else if w = "#\\newline".toList then some '\n'
  else w.tail.tail.head?

/-- A rule without a token. -/
def skipRule (accepts : List Char → Bool) : LexRule Char Token := ⟨accepts, fun _ => some none⟩

/-- A rule with a token. -/
def tokenRule (accepts : List Char → Bool) (action : List Char → Option Token) :
    LexRule Char Token :=
  ⟨accepts, fun w => (action w).map some⟩

/-- The rule of a fixed word. -/
def literalRule (l : List Char × Token) : LexRule Char Token :=
  tokenRule (· == l.1) fun _ => some l.2

/-- The rules behind those for fixed words. -/
def classRules : List (LexRule Char Token) :=
  [tokenRule isIdentifier fun w => some (.id (w.map Char.toLower)),
    tokenRule (· == "#t".toList) fun _ => some (.boolean true),
    tokenRule (· == "#f".toList) fun _ => some (.boolean false),
    tokenRule isCharacter fun w => (character w).map .character,
    tokenRule isString fun w => (getString w).map .string,
    tokenRule isNumber fun w => (readInt w).map .number]

/-- The rules of `Scmlex.x`. -/
def rules : List (LexRule Char Token) :=
  skipRule isComment :: skipRule isBlank :: (literals.map literalRule ++ classRules)

/-- The lexer. -/
def alexScanTokens (cs : List Char) : Option (List Token) := scan rules cs

example : alexScanTokens "(SET! x -12);y\n".toList =
    some [.leftpar, .id "set!".toList, .id "x".toList, .number (-12), .rightpar] := by
  decide +kernel

/-! ## Which rule

The literals come before the classes, and the classes are tried in their order. -/

theorem firstRule_of_not (hc : isComment w = false) (hb : isBlank w = false) :
    firstRule rules w = firstRule (literals.map literalRule ++ classRules) w :=
  (firstRule_cons_of_not hc).trans (firstRule_cons_of_not hb)

theorem firstRule_literal (hc : isComment l.1 = false) (hb : isBlank l.1 = false)
    (hl : literals.find? (fun k => l.1 == k.1) = some l) :
    firstRule rules l.1 = some (literalRule l) := by
  have hfind : firstRule (literals.map literalRule) l.1 = some (literalRule l) := by
    rw [firstRule, List.find?_map]
    exact congrArg (Option.map literalRule) hl
  rw [firstRule_of_not hc hb, firstRule_append_of_some hfind]

theorem firstRule_class (hc : isComment w = false) (hb : isBlank w = false)
    (hl : ∀ l ∈ literals, w ≠ l.1) : firstRule rules w = firstRule classRules w := by
  rw [firstRule_of_not hc hb, firstRule_append]
  rw [firstRule_eq_none_iff]
  intro r hr
  obtain ⟨l, hmem, rfl⟩ := List.mem_map.mp hr
  exact beq_eq_false_iff_ne.mpr (hl l hmem)

/-- Where a rule comes from. -/
theorem firstRule_cases (h : firstRule rules w = some r) :
    (∃ accepts, r = skipRule accepts) ∨ (∃ l ∈ literals, w = l.1 ∧ r = literalRule l) ∨
      (∀ l ∈ literals, w ≠ l.1) ∧ r ∈ classRules ∧ r.accepts w := by
  by_cases hc : isComment w
  · rw [rules, firstRule_cons_of_accepts hc] at h
    cases h
    exact .inl ⟨_, rfl⟩
  by_cases hb : isBlank w
  · rw [rules, firstRule_cons_of_not (Bool.eq_false_iff.mpr hc), firstRule_cons_of_accepts hb] at h
    cases h
    exact .inl ⟨_, rfl⟩
  refine .inr ?_
  by_cases hl : ∀ l ∈ literals, w ≠ l.1
  · rw [firstRule_class (Bool.eq_false_iff.mpr hc) (Bool.eq_false_iff.mpr hb) hl] at h
    exact .inr ⟨hl, mem_of_firstRule h, accepts_of_firstRule h⟩
  · obtain ⟨l, hmem, rfl⟩ : ∃ l ∈ literals, w = l.1 := by
      by_contra hne
      exact hl fun l hmem hw => hne ⟨l, hmem, hw⟩
    have hfind : ∀ l ∈ literals, literals.find? (fun k => l.1 == k.1) = some l := by decide
    rw [firstRule_literal (Bool.eq_false_iff.mpr hc) (Bool.eq_false_iff.mpr hb)
      (hfind l hmem)] at h
    cases h
    exact .inl ⟨l, hmem, rfl, rfl⟩

/-! ## Identifiers -/

theorem isSubsequent_of_isInitial (h : isInitial c) : isSubsequent c := by
  rw [isSubsequent, h]
  rfl

theorem isSubsequent_of_isPeculiar (h : isPeculiar c) : isSubsequent c := by
  have hall : ∀ c ∈ "+-*/".toList, isSubsequent c := List.all_eq_true.mp (by decide)
  exact hall c (decide_eq_true_eq.mp h)

theorem isIdentifier_cons : isIdentifier (c :: cs) ↔
    isInitial c ∧ (∀ d ∈ cs, isSubsequent d) ∨ isPeculiar c ∧ cs = [] := by
  rw [isIdentifier, Bool.or_eq_true, Bool.and_eq_true, Bool.and_eq_true, List.all_eq_true,
    List.isEmpty_iff]

theorem isSubsequent_of_isIdentifier (h : isIdentifier w) : ∀ c ∈ w, isSubsequent c := by
  cases w with
  | nil => exact List.forall_mem_nil _
  | cons c cs =>
    rw [List.forall_mem_cons]
    rcases isIdentifier_cons.mp h with ⟨hc, hcs⟩ | ⟨hc, rfl⟩
    · exact ⟨isSubsequent_of_isInitial hc, hcs⟩
    · exact ⟨isSubsequent_of_isPeculiar hc, List.forall_mem_nil _⟩

theorem isIdentifier_eq_false_of_mem (h : c ∈ w) (hc : isSubsequent c = false) :
    isIdentifier w = false := by
  rw [Bool.eq_false_iff]
  exact fun hw => absurd (isSubsequent_of_isIdentifier hw c h) (Bool.eq_false_iff.mp hc)

/-- The characters of identifiers in lower case, of which there are few enough to try them all. -/
theorem isSubsequent_toLower (h : isSubsequent c) :
    (isInitial c → isInitial c.toLower) ∧ (isPeculiar c → isPeculiar c.toLower) ∧
      isSubsequent c.toLower ∧ c.toLower.toLower = c.toLower ∧
      (c.toLower ∈ "=>".toList → c.toLower = c) := by
  have hall : ∀ n < 127, isSubsequent (Char.ofNat n) →
      (isInitial (Char.ofNat n) → isInitial (Char.ofNat n).toLower) ∧
        (isPeculiar (Char.ofNat n) → isPeculiar (Char.ofNat n).toLower) ∧
        isSubsequent (Char.ofNat n).toLower ∧
        (Char.ofNat n).toLower.toLower = (Char.ofNat n).toLower ∧
        ((Char.ofNat n).toLower ∈ "=>".toList → (Char.ofNat n).toLower = Char.ofNat n) := by
    decide +kernel
  have hc := hall c.toNat (lt_of_isSubsequent h)
  rw [Char.ofNat_toNat] at hc
  exact hc h

theorem isIdentifier_toLower (h : isIdentifier w) : isIdentifier (w.map Char.toLower) := by
  have hsub := isSubsequent_of_isIdentifier h
  cases w with
  | nil => cases h
  | cons c cs =>
    rw [List.forall_mem_cons] at hsub
    rw [List.map_cons, isIdentifier_cons]
    rcases isIdentifier_cons.mp h with ⟨hc, hcs⟩ | ⟨hc, rfl⟩
    · refine .inl ⟨(isSubsequent_toLower hsub.1).1 hc, fun d hd => ?_⟩
      obtain ⟨e, he, rfl⟩ := List.mem_map.mp hd
      exact (isSubsequent_toLower (hcs e he)).2.2.1
    · exact .inr ⟨(isSubsequent_toLower hsub.1).2.1 hc, rfl⟩

theorem toLower_toLower (h : isIdentifier w) :
    (w.map Char.toLower).map Char.toLower = w.map Char.toLower := by
  rw [List.map_map]
  exact List.map_congr_left fun c hc =>
    (isSubsequent_toLower (isSubsequent_of_isIdentifier h c hc)).2.2.2.1

theorem eq_rightarrow_of_toLower (h : isIdentifier w) (hw : w.map Char.toLower = "=>".toList) :
    w = "=>".toList := by
  rw [← hw]
  refine (List.map_id w).symm.trans (List.map_congr_left fun c hc => ?_)
  have hlower := (isSubsequent_toLower (isSubsequent_of_isIdentifier h c hc)).2.2.2.2
  exact (hlower (hw ▸ List.mem_map_of_mem hc)).symm

/-! ## A space behind a word -/

theorem isUinteger10_eq_false_of_mem (h : ' ' ∈ w) : isUinteger10 w = false := by
  rw [isUinteger10, Bool.and_eq_false_iff]
  refine .inr (Bool.eq_false_iff.mpr fun hall => ?_)
  rw [← List.takeWhile_append_dropWhile (p := Char.isDigit) (l := w), List.mem_append] at h
  rcases h with h | h
  · exact absurd (List.mem_takeWhile_imp h) (by decide)
  · exact absurd (List.all_eq_true.mp hall _ h) (by decide)

theorem isNumber_eq_false_of_mem (h : ' ' ∈ w) : isNumber w = false := by
  cases w with
  | nil => cases h
  | cons c cs =>
    rw [isNumber]
    split
    · next hc =>
      refine isUinteger10_eq_false_of_mem ((List.mem_cons.mp h).resolve_left ?_)
      rintro rfl
      exact absurd hc (by decide)
    · exact isUinteger10_eq_false_of_mem h

/-- The rules that take spaces are those for comments, blanks, characters and strings. -/
theorem firstRule_eq_none (hw : ' ' ∈ w) (hc : isComment w = false) (hb : isBlank w = false)
    (hchar : isCharacter w = false) (hs : isString w = false) : firstRule rules w = none := by
  have hspaces : ∀ l ∈ literals, ' ' ∉ l.1 := by decide
  have hne : ∀ v : List Char, ' ' ∉ v → (w == v) = false := by
    rintro v hv
    rw [beq_eq_false_iff_ne]
    rintro rfl
    exact hv hw
  rw [firstRule_class hc hb fun l hl => beq_eq_false_iff_ne.mp (hne l.1 (hspaces l hl)),
    firstRule_eq_none_iff]
  have hid := isIdentifier_eq_false_of_mem hw (by decide)
  have hnumber := isNumber_eq_false_of_mem hw
  have htrue := hne "#t".toList (by decide)
  have hfalse := hne "#f".toList (by decide)
  intro r hr
  simp only [classRules, List.mem_cons, List.not_mem_nil, or_false] at hr
  rcases hr with rfl | rfl | rfl | rfl | rfl | rfl <;> assumption

/-! ## Strings -/

theorem isStringTail_text (es : List StringElm) (u : List Char) :
    isStringTail false (es.flatMap StringElm.text ++ '"' :: u) = u.isEmpty := by
  induction es with
  | nil => rfl
  | cons e es ih =>
    rw [List.flatMap_cons, List.append_assoc]
    cases e with
    | char c h =>
      change isStringTail false (c :: (es.flatMap StringElm.text ++ '"' :: u)) = _
      rw [isStringTail, if_neg Bool.false_ne_true, if_neg h.2.2, if_neg h.2.1, ih,
        bne_iff_ne.mpr h.1, Bool.true_and]
    | quote => exact ih
    | backslash => exact ih

theorem exists_text_of_isStringTail {b : Bool} (h : isStringTail b cs) :
    ∃ es : List StringElm, cond b ('\\' :: cs) cs = es.flatMap StringElm.text ++ ['"'] := by
  induction cs generalizing b with
  | nil => cases h
  | cons c cs ih =>
    rw [isStringTail] at h
    cases b with
    | true =>
      rw [if_pos rfl, Bool.and_eq_true, Bool.or_eq_true, beq_iff_eq, beq_iff_eq] at h
      obtain ⟨es, hes⟩ := ih h.2
      change cs = _ at hes
      rcases h.1 with rfl | rfl
      · exact ⟨.quote :: es, by rw [hes]; rfl⟩
      · exact ⟨.backslash :: es, by rw [hes]; rfl⟩
    | false =>
      rw [if_neg Bool.false_ne_true] at h
      split at h
      · next hc =>
        obtain ⟨es, hes⟩ := ih h
        exact ⟨es, hc ▸ hes⟩
      · next hbackslash =>
        split at h
        · next hc => exact ⟨[], by rw [hc, List.isEmpty_iff.mp h]; rfl⟩
        · next hquote =>
          rw [Bool.and_eq_true, bne_iff_ne] at h
          obtain ⟨hc, htail⟩ := h
          obtain ⟨es, hes⟩ := ih htail
          exact ⟨.char c ⟨hc, hquote, hbackslash⟩ :: es, congrArg (c :: ·) hes⟩

theorem isString_lexeme (es : List StringElm) (u : List Char) :
    isString (stringLexeme es ++ u) = u.isEmpty := by
  have hsplit : es.flatMap StringElm.text ++ ['"'] ++ u =
      es.flatMap StringElm.text ++ '"' :: u := List.append_assoc ..
  exact (congrArg (isStringTail false) hsplit).trans (isStringTail_text es u)

theorem isString_iff : isString w ↔ ∃ es, w = stringLexeme es := by
  constructor
  · intro h
    cases w with
    | nil => cases h
    | cons c cs =>
      rw [isString, Bool.and_eq_true, beq_iff_eq] at h
      obtain ⟨es, hes⟩ := exists_text_of_isStringTail h.2
      exact ⟨es, by rw [h.1, stringLexeme, List.cons_append]; exact congrArg _ hes⟩
  · rintro ⟨es, rfl⟩
    have hes := isString_lexeme es []
    rwa [List.append_nil] at hes

theorem StringElm.value_ne (e : StringElm) : e.value ≠ '\n' := by
  cases e with
  | char c h => exact h.1
  | quote => decide
  | backslash => decide

/-! ## The texts of tokens

A text for each token, which is scanned to the token where a space is behind it. -/

/-- The tokens that the rules make. -/
def Lexable : Token → Prop
  | .id s => isIdentifier s ∧ s.map Char.toLower = s ∧ s ≠ "=>".toList
  | .string s => '\n' ∉ s
  | .number n => -2 ^ 31 ≤ n ∧ n < 2 ^ 31
  | _ => True

/-- A text of an identifier: in upper case, if it is a keyword in lower case. -/
def identifierText (s : List Char) : List Char :=
  if literals.any fun l => l.1 == s then s.map Char.toUpper else s

/-- The text of a character. -/
def characterText (c : Char) : List Char :=
  if c = ' ' then "#\\space".toList else if c = '\n' then "#\\newline".toList else ['#', '\\', c]

/-- The text of a character in a string. -/
def escape (c : Char) : List Char := if c = '"' ∨ c = '\\' then ['\\', c] else [c]

/-- The text of a number. -/
def numberText (n : ℤ) : List Char :=
  (if n < 0 then ['-'] else []) ++ Nat.toDigits 10 n.natAbs

/-- The first fixed word for the token. -/
def literalText (t : Token) : List Char :=
  ((literals.find? fun l => l.2 == t).map Prod.fst).getD []

/-- A text of the token. -/
def tokenText : Token → List Char
  | .id s => identifierText s
  | .string s => '"' :: s.flatMap escape ++ ['"']
  | .boolean b => if b then "#t".toList else "#f".toList
  | .character c => characterText c
  | .number n => numberText n
  | t => literalText t

/-- A text of the tokens, with a space behind each. -/
def text (ts : List Token) : List Char := ts.flatMap fun t => tokenText t ++ [' ']

/-- The word is the token's, and ends before a space. -/
structure IsWord (w : List Char) (t : Token) : Prop where
  head : ∃ c cs, w = c :: cs ∧ c ∉ white
  first : ∃ r, firstRule rules w = some r ∧ r.action w = some (some t)
  ends : ∀ u, firstRule rules (w ++ ' ' :: u) = none

theorem isBlank_eq_false (h : c ∉ white) : isBlank (c :: cs) = false := by
  have hc : white.contains c = false := by
    rw [Bool.eq_false_iff, ne_eq, List.contains_iff_mem]
    exact h
  rw [isBlank, List.all_cons, hc]
  rfl

theorem isComment_eq_false (h : c ≠ ';') : isComment (c :: cs) = false := by
  rw [isComment, beq_eq_false_iff_ne.mpr h, Bool.false_and]

/-- A space behind a token is skipped. -/
theorem munches_space (h : u = [] ∨ ∃ c cs, u = c :: cs ∧ c ∉ white) :
    Munches rules (skipRule isBlank) [' '] u where
  ne_nil := List.cons_ne_nil _ _
  first := rfl
  longest := by
    intro v hv hprefix
    obtain ⟨d, v, rfl⟩ := List.exists_cons_of_ne_nil hv
    rcases h with rfl | ⟨c, cs, rfl, hc⟩
    · exact absurd (List.prefix_nil.mp hprefix) hv
    obtain ⟨rfl, -⟩ := List.cons_prefix_cons.mp hprefix
    have hblank : isBlank (' ' :: d :: v) = false := by
      have hd : white.contains d = false := by
        rw [Bool.eq_false_iff, ne_eq, List.contains_iff_mem]
        exact hc
      rw [isBlank, List.all_cons, List.all_cons, hd, Bool.false_and, Bool.and_false,
        Bool.and_false]
    have hchar : isCharacter (' ' :: d :: v) = false := by
      rw [isCharacter, Bool.or_eq_false_iff, Bool.or_eq_false_iff]
      refine ⟨⟨?_, beq_eq_false_iff_ne.mpr ?_⟩, beq_eq_false_iff_ne.mpr ?_⟩
      · simp
      · exact fun heq => absurd (List.cons.inj heq).1 (by decide)
      · exact fun heq => absurd (List.cons.inj heq).1 (by decide)
    exact firstRule_eq_none List.mem_cons_self rfl hblank hchar rfl

/-- **A text of words** is scanned word by word. -/
theorem scans_text (h : ∀ t ∈ ts, IsWord (tokenText t) t) : Scans rules (text ts) ts := by
  induction ts with
  | nil => exact .nil
  | cons t ts ih =>
    obtain ⟨hword, hwords⟩ := List.forall_mem_cons.mp h
    have hrest : text ts = [] ∨ ∃ c cs, text ts = c :: cs ∧ c ∉ white := by
      cases ts with
      | nil => exact .inl rfl
      | cons t' ts =>
        obtain ⟨c, cs, hcs, hc⟩ := (hwords t' List.mem_cons_self).head
        refine .inr ⟨c, cs ++ [' '] ++ text ts, ?_, hc⟩
        rw [text, List.flatMap_cons, hcs]
        rfl
    obtain ⟨c, cs, hcs, -⟩ := hword.head
    obtain ⟨r, hfirst, hact⟩ := hword.first
    have hne : tokenText t ≠ [] := hcs ▸ List.cons_ne_nil c cs
    have hscans := Scans.token (.of_separated hne hfirst hword.ends) hact
      (Scans.skip (munches_space hrest) rfl (ih hwords))
    have htext : text (t :: ts) = tokenText t ++ ' ' :: text ts := by
      rw [text, List.flatMap_cons, List.append_assoc]
      rfl
    exact htext ▸ hscans

/-! ### Each token has a word -/

theorem isCharacter_eq_false (h : c ≠ '#') : isCharacter (c :: cs) = false := by
  rw [isCharacter, Bool.or_eq_false_iff, Bool.or_eq_false_iff]
  refine ⟨⟨?_, beq_eq_false_iff_ne.mpr ?_⟩, beq_eq_false_iff_ne.mpr ?_⟩
  · rw [Bool.and_eq_false_iff, Bool.and_eq_false_iff, beq_eq_false_iff_ne, beq_eq_false_iff_ne]
    refine .inl (.inr fun heq => ?_)
    rw [List.take_succ_cons] at heq
    exact h (List.cons.inj heq).1
  · exact fun heq => h (List.cons.inj heq).1
  · exact fun heq => h (List.cons.inj heq).1

theorem isString_eq_false (h : c ≠ '"') : isString (c :: cs) = false := by
  rw [isString, beq_eq_false_iff_ne.mpr h, Bool.false_and]

/-- No rule takes more than a word that begins like no comment, blank, character or string. -/
theorem ends_of_head (hw : w = c :: cs) (hc : c ∉ white) (hs : c ∉ [';', '#', '"'])
    (u : List Char) :
    firstRule rules (w ++ ' ' :: u) = none := by
  rw [List.mem_cons, List.mem_cons, List.mem_singleton, not_or, not_or] at hs
  have hmem : ' ' ∈ c :: (cs ++ ' ' :: u) :=
    List.mem_cons_of_mem _ (List.mem_append_right _ List.mem_cons_self)
  rw [hw, List.cons_append]
  exact firstRule_eq_none hmem (isComment_eq_false hs.1) (isBlank_eq_false hc)
    (isCharacter_eq_false hs.2.1) (isString_eq_false hs.2.2)

theorem isWord_literal (hl : l ∈ literals) : IsWord l.1 l.2 := by
  have hfind : ∀ l ∈ literals, literals.find? (fun k => l.1 == k.1) = some l := by decide
  have hhead : ∀ l ∈ literals, l.1.headD ' ' ∉ white ∧ l.1.headD ' ' ∉ [';', '"'] := by decide
  have hsharp : ∀ l ∈ literals, l.1.headD ' ' = '#' → l.1 = "#(".toList := by decide
  replace hfind := hfind l hl
  replace hhead := hhead l hl
  replace hsharp := hsharp l hl
  obtain ⟨w, t⟩ := l
  cases w with
  | nil => exact absurd List.mem_cons_self hhead.1
  | cons c cs =>
    obtain ⟨hwhite, hnot⟩ := hhead
    change c ∉ white at hwhite
    change c ∉ [';', '"'] at hnot
    rw [List.mem_cons, List.mem_singleton, not_or] at hnot
    refine ⟨⟨c, cs, rfl, hwhite⟩, ⟨literalRule (c :: cs, t), ?_, rfl⟩, fun u => ?_⟩
    · exact firstRule_literal (isComment_eq_false hnot.1) (isBlank_eq_false hwhite) hfind
    · by_cases hc : c = '#'
      · rw [show c :: cs = "#(".toList from hsharp hc]
        exact firstRule_eq_none (by simp) rfl rfl (by simp [isCharacter]) rfl
      · exact ends_of_head rfl hwhite (by simp [hc, hnot]) u

theorem isWord_identifier (h : isIdentifier w) (hl : ∀ l ∈ literals, w ≠ l.1) :
    IsWord w (.id (w.map Char.toLower)) := by
  have hsub := isSubsequent_of_isIdentifier h
  obtain ⟨c, cs, rfl⟩ : ∃ c cs, w = c :: cs := by
    cases w with
    | nil => cases h
    | cons c cs => exact ⟨c, cs, rfl⟩
  have hc := hsub c List.mem_cons_self
  have hnot : ∀ d ∈ white ++ [';', '#', '"'], !isSubsequent d := List.all_eq_true.mp (by decide)
  have hmem : c ∉ white ++ [';', '#', '"'] := by
    intro hmem
    have hfalse := hnot c hmem
    rw [hc] at hfalse
    cases hfalse
  rw [List.mem_append, not_or] at hmem
  refine ⟨⟨c, cs, rfl, hmem.1⟩, ⟨tokenRule isIdentifier fun w => some (.id (w.map Char.toLower)),
    ?_, rfl⟩, ends_of_head rfl hmem.1 hmem.2⟩
  have hcomment : c ≠ ';' := fun heq => hmem.2 (heq ▸ List.mem_cons_self)
  rw [firstRule_class (isComment_eq_false hcomment) (isBlank_eq_false hmem.1) hl]
  exact firstRule_cons_of_accepts h

theorem isWord_identifierText (h : Lexable (.id s)) : IsWord (tokenText (.id s)) (.id s) := by
  obtain ⟨hid, hlower, hne⟩ := h
  have hupper : ∀ k ∈ literals, isIdentifier k.1 → k.1 ≠ "=>".toList →
      isIdentifier (k.1.map Char.toUpper) ∧ (k.1.map Char.toUpper).map Char.toLower = k.1 ∧
        ∀ l ∈ literals, k.1.map Char.toUpper ≠ l.1 := by
    decide +kernel
  change IsWord (identifierText s) _
  rw [identifierText]
  split
  · next hmem =>
    obtain ⟨k, hk, hks⟩ := List.any_eq_true.mp hmem
    obtain rfl := beq_iff_eq.mp hks
    obtain ⟨hup, hdown, hnot⟩ := hupper k hk hid hne
    have hword := isWord_identifier hup hnot
    rwa [hdown] at hword
  · next hmem =>
    have hword := isWord_identifier hid fun l hl heq =>
      hmem (List.any_eq_true.mpr ⟨l, hl, beq_iff_eq.mpr heq.symm⟩)
    rwa [hlower] at hword

/-- A word of a class, which is no comment, blank or fixed word, by the rules before its own. -/
theorem isWord_class (hw : w = c :: cs) (hc : c ∉ white) (hcomment : c ≠ ';')
    (hl : ∀ l ∈ literals, w ≠ l.1) (hfirst : firstRule classRules w = some r)
    (hact : r.action w = some (some t)) (hends : ∀ u, firstRule rules (w ++ ' ' :: u) = none) :
    IsWord w t where
  head := ⟨c, cs, hw, hc⟩
  first := by
    refine ⟨r, ?_, hact⟩
    rw [firstRule_class (hw ▸ isComment_eq_false hcomment) (hw ▸ isBlank_eq_false hc) hl, hfirst]
  ends := hends

theorem isWord_boolean (b : Bool) : IsWord (tokenText (.boolean b)) (.boolean b) := by
  have hends : ∀ w ∈ ["#t".toList, "#f".toList], ∀ u, firstRule rules (w ++ ' ' :: u) = none := by
    intro w hw u
    simp only [List.mem_cons, List.not_mem_nil, or_false] at hw
    rcases hw with rfl | rfl
    · exact firstRule_eq_none (by simp) rfl rfl (by simp [isCharacter]) rfl
    · exact firstRule_eq_none (by simp) rfl rfl (by simp [isCharacter]) rfl
  cases b with
  | true => exact ⟨⟨_, _, rfl, by decide⟩, ⟨_, rfl, rfl⟩, hends _ (by simp [tokenText])⟩
  | false => exact ⟨⟨_, _, rfl, by decide⟩, ⟨_, rfl, rfl⟩, hends _ (by simp [tokenText])⟩

theorem isWord_characterText (c : Char) : IsWord (tokenText (.character c)) (.character c) := by
  change IsWord (characterText c) _
  have hends : ∀ c u, firstRule rules ('#' :: '\\' :: c :: ' ' :: u) = none := by
    intro c u
    exact firstRule_eq_none (by simp) rfl rfl (by simp [isCharacter]) rfl
  rw [characterText]
  split
  · next hspace =>
    subst hspace
    refine ⟨⟨_, _, rfl, by decide⟩, ⟨_, rfl, rfl⟩, fun u => ?_⟩
    exact firstRule_eq_none (by simp) rfl rfl (by simp [isCharacter]) rfl
  · next hspace =>
    split
    · next hnewline =>
      subst hnewline
      refine ⟨⟨_, _, rfl, by decide⟩, ⟨_, rfl, rfl⟩, fun u => ?_⟩
      exact firstRule_eq_none (by simp) rfl rfl (by simp [isCharacter]) rfl
    · next hnewline =>
      have hchar : isCharacter ['#', '\\', c] = true := by
        simp [isCharacter, Ne.symm hnewline]
      have hid : isIdentifier ['#', '\\', c] = false :=
        isIdentifier_eq_false_of_mem List.mem_cons_self (by decide)
      have hliteral : ∀ l ∈ literals, ['#', '\\', c] ≠ l.1 := by
        have hshort : ∀ l ∈ literals, l.1.take 2 ≠ ['#', '\\'] := by decide
        intro l hl heq
        exact hshort l hl (heq ▸ rfl)
      have hfirst : firstRule classRules ['#', '\\', c] =
          some (tokenRule isCharacter fun w => (character w).map .character) :=
        (firstRule_cons_of_not hid).trans ((firstRule_cons_of_not rfl).trans
          ((firstRule_cons_of_not rfl).trans (firstRule_cons_of_accepts hchar)))
      refine isWord_class rfl (by decide) (by decide) hliteral hfirst ?_ (hends c)
      change ((character ['#', '\\', c]).map Token.character).map some = _
      rw [character, if_neg fun heq => by simp at heq, if_neg fun heq => by simp at heq]
      rfl

theorem exists_stringElm (h : '\n' ∉ s) : ∃ es : List StringElm,
    es.map StringElm.value = s ∧ es.flatMap StringElm.text = s.flatMap escape := by
  induction s with
  | nil => exact ⟨[], rfl, rfl⟩
  | cons c s ih =>
    rw [List.mem_cons, not_or] at h
    obtain ⟨es, rfl, htext⟩ := ih h.2
    rw [List.flatMap_cons, escape, ← htext]
    by_cases hquote : c = '"'
    · subst hquote
      exact ⟨.quote :: es, rfl, rfl⟩
    by_cases hbackslash : c = '\\'
    · subst hbackslash
      exact ⟨.backslash :: es, rfl, rfl⟩
    rw [if_neg (not_or.mpr ⟨hquote, hbackslash⟩)]
    exact ⟨.char c ⟨Ne.symm h.1, hquote, hbackslash⟩ :: es, rfl, rfl⟩

theorem isWord_string (h : Lexable (.string s)) : IsWord (tokenText (.string s)) (.string s) := by
  obtain ⟨es, hvalue, htext⟩ := exists_stringElm h
  have hlexeme : tokenText (.string s) = stringLexeme es := by
    rw [stringLexeme, htext]
    rfl
  have hstring : isString (stringLexeme es) := isString_iff.mpr ⟨es, rfl⟩
  have hid : isIdentifier (stringLexeme es) = false :=
    isIdentifier_eq_false_of_mem List.mem_cons_self (by decide)
  have hliteral : ∀ l ∈ literals, stringLexeme es ≠ l.1 := by
    have hhead : ∀ l ∈ literals, l.1.headD ' ' ≠ '"' := by decide
    intro l hl heq
    exact hhead l hl (heq ▸ rfl)
  have hfirst : firstRule classRules (stringLexeme es) =
      some (tokenRule isString fun w => (getString w).map .string) :=
    (firstRule_cons_of_not hid).trans ((firstRule_cons_of_not rfl).trans
      ((firstRule_cons_of_not rfl).trans ((firstRule_cons_of_not
        (isCharacter_eq_false (by decide))).trans (firstRule_cons_of_accepts hstring))))
  rw [hlexeme]
  refine isWord_class rfl (by decide) (by decide) hliteral hfirst ?_ fun u => ?_
  · change ((getString (stringLexeme es)).map Token.string).map some = _
    rw [getString_lexeme, hvalue]
    rfl
  · exact firstRule_eq_none (List.mem_append_right _ List.mem_cons_self) rfl
      (isBlank_eq_false (by decide)) (isCharacter_eq_false (by decide)) (isString_lexeme es _)

/-- The number, as a lexeme. -/
def numberLexeme (n : ℤ) : NumberLexeme where
  sign := if n < 0 then .minus else .none
  digits := Nat.toDigits 10 n.natAbs
  hashes := 0
  isDigits := ⟨Nat.toDigits_ne_nil,
    fun _ hc => Nat.isDigit_of_mem_toDigits (by omega) (Nat.le_refl 10) hc⟩

theorem numberLexeme_text (n : ℤ) : (numberLexeme n).text = numberText n := by
  rw [NumberLexeme.text, numberText]
  change Sign.text (if n < 0 then .minus else .none) ++ Nat.toDigits 10 n.natAbs ++ [] = _
  rw [List.append_nil]
  by_cases hn : n < 0
  · rw [if_pos hn, if_pos hn]
    rfl
  · rw [if_neg hn, if_neg hn]
    rfl

theorem numberLexeme_denotes (n : ℤ) : (numberLexeme n).denotes = n := by
  have hvalue : digitsValue (numberLexeme n).digits = n.natAbs := Nat.ofDigitChars_ten_toDigits
  rw [NumberLexeme.denotes, hvalue]
  change (if (if n < 0 then Sign.minus else .none) = .minus then
    -(n.natAbs * 10 ^ 0 : ℤ) else n.natAbs * 10 ^ 0) = n
  rw [pow_zero, mul_one]
  by_cases hn : n < 0
  · rw [if_pos hn, if_pos rfl]
    omega
  · rw [if_neg hn, if_neg (by decide)]
    omega

theorem readInt_numberText (h : Lexable (.number n)) : readInt (numberText n) = some n := by
  obtain ⟨hlow, hhigh⟩ := h
  have hsign : (numberLexeme n).sign ≠ .plus := by
    change (if n < 0 then Sign.minus else .none) ≠ .plus
    split <;> decide
  rw [← numberLexeme_text, readInt_text, if_pos ⟨hsign, rfl⟩, numberLexeme_denotes, Int.bmod_def]
  congr 1
  split <;> omega

theorem isNumber_numberText (n : ℤ) : isNumber (numberText n) := by
  have hdigits := (numberLexeme n).isDigits
  change Nat.toDigits 10 n.natAbs ≠ [] ∧ ∀ c ∈ Nat.toDigits 10 n.natAbs, c.isDigit at hdigits
  have hall : isUinteger10 (Nat.toDigits 10 n.natAbs) := by
    rw [isUinteger10, List.takeWhile_eq_self_iff.mpr hdigits.2,
      List.dropWhile_eq_nil_iff.mpr hdigits.2, List.all_nil, Bool.and_true, Bool.not_eq_true',
      List.isEmpty_eq_false_iff]
    exact hdigits.1
  rw [numberText]
  split
  · exact hall
  · rw [List.nil_append]
    obtain ⟨c, cs, hcs⟩ := List.exists_cons_of_ne_nil hdigits.1
    have hc := hdigits.2 c (hcs ▸ List.mem_cons_self)
    rw [hcs] at hall ⊢
    rw [isNumber, if_neg]
    · exact hall
    · rintro (rfl | rfl)
      · exact absurd hc (by decide)
      · exact absurd hc (by decide)

theorem not_of_isDigit (h : c.isDigit) : ¬isInitial c ∧ ¬isPeculiar c := by
  have hall : ∀ n < 58, (Char.ofNat n).isDigit →
      ¬isInitial (Char.ofNat n) ∧ ¬isPeculiar (Char.ofNat n) := by
    decide +kernel
  have hc := hall c.toNat (Nat.lt_succ_of_le (Char.isDigit_iff_toNat.mp h).2)
  rw [Char.ofNat_toNat] at hc
  exact hc h

theorem isWord_number (h : Lexable (.number n)) : IsWord (tokenText (.number n)) (.number n) := by
  change IsWord (numberText n) _
  have hnumber := isNumber_numberText n
  have hread := readInt_numberText h
  have hhead : ∃ c cs, numberText n = c :: cs ∧ (c = '-' ∧ cs ≠ [] ∨ c.isDigit) := by
    have hdigits := (numberLexeme n).isDigits
    change Nat.toDigits 10 n.natAbs ≠ [] ∧ ∀ c ∈ Nat.toDigits 10 n.natAbs, c.isDigit at hdigits
    rw [numberText]
    split
    · exact ⟨'-', _, rfl, .inl ⟨rfl, hdigits.1⟩⟩
    · obtain ⟨c, cs, hcs⟩ := List.exists_cons_of_ne_nil hdigits.1
      exact ⟨c, cs, hcs, .inr (hdigits.2 c (hcs ▸ List.mem_cons_self))⟩
  obtain ⟨c, cs, hcs, hc⟩ := hhead
  -- A digit, or a minus sign with something behind it, begins no word of another rule.
  have hne : ∀ d, d.isDigit = false → d ≠ '-' → c ≠ d := by
    rintro d hd hminus rfl
    rcases hc with ⟨hc, -⟩ | hc
    · exact hminus hc
    · exact absurd hc (Bool.eq_false_iff.mp hd)
  have hnot : ∀ d ∈ white ++ [';', '#', '"'], c ≠ d := by
    have hall : ∀ d ∈ white ++ [';', '#', '"'], !d.isDigit && d != '-' :=
      List.all_eq_true.mp (by decide)
    intro d hd
    have hd := hall d hd
    rw [Bool.and_eq_true, Bool.not_eq_true', bne_iff_ne] at hd
    exact hne d hd.1 hd.2
  have hmem : c ∉ white ++ [';', '#', '"'] := fun hmem => hnot c hmem rfl
  rw [List.mem_append, not_or] at hmem
  have hliteral : ∀ l ∈ literals, numberText n ≠ l.1 := by
    have hall : ∀ l ∈ literals, isNumber l.1 = false := by decide
    intro l hl heq
    rw [heq, hall l hl] at hnumber
    cases hnumber
  have hid : isIdentifier (numberText n) = false := by
    rw [Bool.eq_false_iff, hcs, ne_eq, isIdentifier_cons]
    rcases hc with ⟨rfl, hnil⟩ | hc
    · rintro (⟨hinitial, -⟩ | ⟨-, heq⟩)
      · exact absurd hinitial (by decide)
      · exact hnil heq
    · rintro (⟨hinitial, -⟩ | ⟨hpeculiar, -⟩)
      · exact (not_of_isDigit hc).1 hinitial
      · exact (not_of_isDigit hc).2 hpeculiar
  have hsharp : ∀ w, numberText n ≠ '#' :: w := fun w heq =>
    hnot '#' (by decide) (List.cons.inj (hcs.symm.trans heq)).1
  have hchar : isCharacter (numberText n) = false :=
    hcs ▸ isCharacter_eq_false (hnot '#' (by decide))
  have hstring : isString (numberText n) = false := hcs ▸ isString_eq_false (hnot '"' (by decide))
  have hfirst : firstRule classRules (numberText n) =
      some (tokenRule isNumber fun w => (readInt w).map .number) :=
    (firstRule_cons_of_not hid).trans ((firstRule_cons_of_not
      (beq_eq_false_iff_ne.mpr (hsharp _))).trans ((firstRule_cons_of_not
        (beq_eq_false_iff_ne.mpr (hsharp _))).trans ((firstRule_cons_of_not hchar).trans
          ((firstRule_cons_of_not hstring).trans (firstRule_cons_of_accepts hnumber)))))
  refine isWord_class hcs hmem.1 (hnot ';' (by decide)) hliteral hfirst ?_
    (ends_of_head hcs hmem.1 hmem.2)
  change ((readInt (numberText n)).map Token.number).map some = _
  rw [hread]
  rfl

theorem isWord_literalText (ht : (literals.any fun l => l.2 == t) = true) :
    IsWord (literalText t) t := by
  have hall : ∀ l ∈ literals, (literalText l.2, l.2) ∈ literals := by decide
  obtain ⟨l, hl, hlt⟩ := List.any_eq_true.mp ht
  exact beq_iff_eq.mp hlt ▸ isWord_literal (hall l hl)

theorem isWord_tokenText (h : Lexable t) : IsWord (tokenText t) t := by
  cases t with
  | id s => exact isWord_identifierText h
  | string s => exact isWord_string h
  | boolean b => exact isWord_boolean b
  | character c => exact isWord_characterText c
  | number n => exact isWord_number h
  | _ => exact isWord_literalText rfl

/-! ## What is scanned -/

/-- **Round trip**: the text of tokens is scanned as the tokens. -/
theorem alexScanTokens_text (h : ∀ t ∈ ts, Lexable t) : alexScanTokens (text ts) = some ts :=
  scan_iff.mpr (scans_text fun t ht => isWord_tokenText (h t ht))

theorem lexable_of_kind (h : Parser.kind t ∉ [some .id, some .string, some .number]) :
    Lexable t := by
  cases t with
  | id s => exact absurd List.mem_cons_self h
  | string s => exact absurd (List.mem_cons_of_mem _ List.mem_cons_self) h
  | number n =>
    exact absurd (List.mem_cons_of_mem _ (List.mem_cons_of_mem _ List.mem_cons_self)) h
  | _ => trivial

theorem lexable_of_readInt (h : readInt w = some n) : Lexable (.number n) := by
  have hbmod : ∀ m : ℤ, Lexable (.number (m.bmod (2 ^ 32))) := by
    intro m
    change -2 ^ 31 ≤ m.bmod (2 ^ 32) ∧ m.bmod (2 ^ 32) < 2 ^ 31
    rw [Int.bmod_def]
    split <;> omega
  rw [readInt.eq_def] at h
  split at h
  · obtain ⟨m, -, rfl⟩ := Option.map_eq_some_iff.mp h
    exact hbmod _
  · obtain ⟨m, -, rfl⟩ := Option.map_eq_some_iff.mp h
    exact hbmod _

theorem lexable_of_action (hfirst : firstRule rules w = some r)
    (hact : r.action w = some (some t)) : Lexable t := by
  rcases firstRule_cases hfirst with ⟨accepts, rfl⟩ | ⟨l, hl, rfl, rfl⟩ | ⟨hl, hr, hw⟩
  · cases hact
  · cases hact
    have hall : ∀ l ∈ literals, Parser.kind l.2 ∉ [some .id, some .string, some .number] := by
      decide
    exact lexable_of_kind (hall l hl)
  simp only [classRules, List.mem_cons, List.not_mem_nil, or_false] at hr
  rcases hr with rfl | rfl | rfl | rfl | rfl | rfl
  · cases hact
    refine ⟨isIdentifier_toLower hw, toLower_toLower hw, fun heq => ?_⟩
    exact hl ("=>".toList, .rightarrow) (by decide) (eq_rightarrow_of_toLower hw heq)
  · cases hact
    trivial
  · cases hact
    trivial
  · obtain ⟨t', ht', heq⟩ := Option.map_eq_some_iff.mp hact
    cases heq
    obtain ⟨c, -, rfl⟩ := Option.map_eq_some_iff.mp ht'
    trivial
  · obtain ⟨t', ht', heq⟩ := Option.map_eq_some_iff.mp hact
    cases heq
    obtain ⟨s, hs, rfl⟩ := Option.map_eq_some_iff.mp ht'
    obtain ⟨es, rfl⟩ := isString_iff.mp hw
    rw [getString_lexeme] at hs
    cases hs
    intro hmem
    obtain ⟨e, -, he⟩ := List.mem_map.mp hmem
    exact StringElm.value_ne e he
  · obtain ⟨t', ht', heq⟩ := Option.map_eq_some_iff.mp hact
    cases heq
    obtain ⟨n, hn, rfl⟩ := Option.map_eq_some_iff.mp ht'
    exact lexable_of_readInt hn

theorem lexable_of_alexScanTokens (h : alexScanTokens cs = some ts) : ∀ t ∈ ts, Lexable t :=
  (scan_iff.mp h).forall fun _ _ _ => lexable_of_action

/-- **The lexer's lists of tokens** are those whose identifiers are in lower case and not `=>`,
whose strings have no newline, and whose numbers are of 32 bits.  The text of such a list is scanned
as the list. -/
theorem scanned_iff (ts : List Token) :
    ((∃ cs, alexScanTokens cs = some ts) ↔ ∀ t ∈ ts, Lexable t) ∧
      ((∀ t ∈ ts, Lexable t) → alexScanTokens (text ts) = some ts) := by
  refine ⟨⟨?_, fun h => ⟨text ts, alexScanTokens_text h⟩⟩, alexScanTokens_text⟩
  rintro ⟨cs, hcs⟩
  exact lexable_of_alexScanTokens hcs

end SchemeOs.Compiler.Scanner
