import Mathlib.Data.List.TakeWhile
import Mathlib.Tactic.IntervalCases
import Mathlib.Tactic.Ring
import SchemeOs.Reader.History
import SchemeOs.Reader.Printer
import SchemeOs.Reader.Tokens

/-!
# Reader/RoundTrip — what is printed is read

The text of a datum leaves the lexer with the lexemes of the datum, and these derive the datum.  A
list of the printer is its elements with a blank before each but the first, between two brackets.
-/

namespace SchemeOs

variable {l l' l₀ : Lexer} {xs : List Lexeme} {stack : ℤ} {rest w port : List Char} {d car cdr : Datum}
  {n k a e : ℕ} {lax more : Prop}

/-! ## Numbers -/

section Numbers

variable {c : Char}

theorem nameChar_of_isdigit (hc : isdigit c) : NameChar c := by
  have hval : (48 : ℤ) ≤ charVal c ∧ charVal c ≤ 57 := by
    simp only [isdigit, Bool.and_eq_true, decide_eq_true_eq] at hc
    exact ⟨hc.2, hc.1⟩
  have hnat : 48 ≤ c.toNat ∧ c.toNat ≤ 57 := by
    unfold charVal at hval
    split_ifs at hval <;> omega
  refine ⟨by omega, by omega, fun hmem => ?_⟩
  simp only [List.mem_cons, List.not_mem_nil, or_false] at hmem
  rcases hmem with rfl | rfl | rfl | rfl | rfl | rfl | rfl | rfl | rfl <;>
    exact absurd hnat (by decide)

theorem isdigit_digitChar (hn : n < 10) : isdigit (digitChar n) = true := by
  interval_cases n <;> decide

theorem toNat_digitChar (hn : n < 10) : (digitChar n).toNat - '0'.toNat = n := by
  interval_cases n <;> decide

/-- The value of digits after others. -/
def digitsVal (a : ℕ) (w : List Char) : ℕ :=
  w.foldl (fun i c => 10 * i + (c.toNat - '0'.toNat)) a

theorem digits_itoaDigits (hn : n < 10 ^ (k + 1)) : (itoaDigits k n).all isdigit ∧
    itoaDigits k n ≠ [] ∧ ∀ a, digitsVal a (itoaDigits k n) = a * 10 ^ (k + 1) + n := by
  induction k generalizing n with
  | zero =>
    have hlt : n < 10 := by simpa using hn
    refine ⟨by simp only [itoaDigits, List.all_cons, isdigit_digitChar hlt, List.all_nil,
      Bool.and_self], List.cons_ne_nil _ _, fun a => ?_⟩
    simp only [digitsVal, itoaDigits, List.foldl_cons, List.foldl_nil, toNat_digitChar hlt]
    omega
  | succ k ih =>
    have hpos : 0 < 10 ^ (k + 1) := Nat.pow_pos (by decide)
    have hlt : n / 10 ^ (k + 1) < 10 := by
      rw [Nat.div_lt_iff_lt_mul hpos, Nat.mul_comm, ← Nat.pow_succ]
      exact hn
    obtain ⟨hall, -, hval⟩ := ih (Nat.mod_lt n hpos)
    refine ⟨by rw [itoaDigits, List.all_cons, isdigit_digitChar hlt, hall]; rfl,
      List.cons_ne_nil _ _, fun a => ?_⟩
    rw [itoaDigits, digitsVal, List.foldl_cons, toNat_digitChar hlt, ← digitsVal, hval]
    calc (10 * a + n / 10 ^ (k + 1)) * 10 ^ (k + 1) + n % 10 ^ (k + 1)
        = a * (10 * 10 ^ (k + 1)) +
            (10 ^ (k + 1) * (n / 10 ^ (k + 1)) + n % 10 ^ (k + 1)) := by ring
      _ = a * 10 ^ (k + 1 + 1) + n := by rw [Nat.div_add_mod, ← Nat.pow_succ']

theorem lt_itoaStart (hn : n < 10 ^ (k + 1)) : n < 10 ^ (itoaStart k n + 1) := by
  induction k with
  | zero => exact hn
  | succ k ih =>
    rw [itoaStart]
    split_ifs with hzero
    · exact ih ((Nat.div_eq_zero_iff.mp hzero).resolve_left (Nat.pow_pos (by decide)).ne')
    · exact hn

theorem digits_itoaUDec (hn : n < 2 ^ 31) : (itoaUDec n).all isdigit ∧ itoaUDec n ≠ [] ∧
    digitsVal 0 (itoaUDec n) = n := by
  unfold itoaUDec
  split_ifs with hzero
  · subst hzero
    decide
  · obtain ⟨hall, hne, hval⟩ := digits_itoaDigits (lt_itoaStart (k := 9) (n := n) (by omega))
    exact ⟨hall, hne, by rw [hval]; omega⟩

/-- `atoi` on digits. -/
theorem atoi_eq (hall : w.all isdigit) (hne : w ≠ []) (hval : digitsVal 0 w < 2 ^ 31) :
    atoi w = digitsVal 0 w := by
  obtain ⟨c, u, rfl⟩ := List.exists_cons_of_ne_nil hne
  have hc : isdigit c := by
    rw [List.all_cons, Bool.and_eq_true] at hall
    exact hall.1
  have hname := nameChar_of_isdigit hc
  have htake : (c :: u).takeWhile isdigit = c :: u := by
    rw [List.takeWhile_eq_self_iff]
    exact List.all_eq_true.mp hall
  have hdrop : (c :: u).dropWhile isspace = c :: u := by
    rw [List.dropWhile_cons, hname.isspace, if_neg Bool.false_ne_true]
  unfold atoi
  rw [hdrop]
  split
  · rename_i heq
    obtain ⟨rfl, -⟩ := List.cons.inj heq
    exact absurd hc (by decide)
  · rename_i heq
    obtain ⟨rfl, -⟩ := List.cons.inj heq
    exact absurd hc (by decide)
  · dsimp only
    rw [htake]
    change min (digitsVal 0 (c :: u) : ℤ) (2 ^ 31 - 1) = _
    omega

end Numbers

/-! ## Plain data -/

/-- The name of a symbol that is read as such. -/
structure IsName (name : List Char) : Prop where
  ne_nil : name ≠ []
  nameChar : ∀ c ∈ name, NameChar c
  notDigits : name.all isdigit = false

/-- Data of symbols, numbers, booleans and lists. -/
def Datum.Plain : Datum → Prop
  | .symbol name => IsName name
  | .int n => 0 ≤ n ∧ n < 2 ^ 31
  | .bool _ | .null => True
  | .pair car cdr => car.Plain ∧ cdr.Plain
  | _ => False

/-- The token of an atom. -/
def atomLexeme : Datum → Lexeme
  | .bool b => ⟨if b then .true else .false, .bool b⟩
  | d => .word (wordType (atomToString d)) (atomToString d)

mutual

/-- The tokens of the text of a datum. -/
def Datum.lexemes : Datum → List Lexeme
  | .pair car cdr => ⟨.leftPar, .void⟩ :: car.lexemes ++ cdr.tailLexemes ++ [⟨.rightPar, .void⟩]
  | .null => [⟨.leftPar, .void⟩, ⟨.rightPar, .void⟩]
  | d => [atomLexeme d]

/-- The tokens of what follows an element of a list, but for the bracket. -/
def Datum.tailLexemes : Datum → List Lexeme
  | .pair car cdr => car.lexemes ++ cdr.tailLexemes
  | .null => []
  | d => [.word .point ['.'], atomLexeme d]

end

/-- The text of a number. -/
theorem word_int {m : ℤ} (h : (Datum.int m).Plain) :
    (∀ c ∈ atomToString (.int m), NameChar c) ∧ atomToString (.int m) ≠ [] ∧
      Lexeme.word (wordType (atomToString (.int m))) (atomToString (.int m)) =
        ⟨.number, .int m⟩ := by
  obtain ⟨hge, hlt⟩ := h
  obtain ⟨n, rfl⟩ := Int.eq_ofNat_of_zero_le hge
  have hmod : ((n : ℤ) % 2 ^ 32).toNat = n := by omega
  have hlt' : n < 2 ^ 31 := by omega
  obtain ⟨hall, hne, hval⟩ := digits_itoaUDec hlt'
  have hatoi : atoi (itoaUDec n) = n := by rw [atoi_eq hall hne (by rw [hval]; exact hlt'), hval]
  simp only [atomToString, hmod]
  refine ⟨fun c hc => nameChar_of_isdigit (List.all_eq_true.mp hall c hc), hne, ?_⟩
  rw [wordType, if_pos hall, Lexeme.word, hatoi]

theorem word_symbol {name : List Char} (h : IsName name) :
    Lexeme.word (wordType name) name = ⟨.symbol, .symbol name⟩ := by
  rw [wordType, h.notDigits, if_neg Bool.false_ne_true, Lexeme.word]

/-! ## The text of a list

The printer's loop over a list, as the text that it appends. -/

/-- What the printer writes after an element of a list, but for the bracket. -/
def Datum.tailText : Datum → List Char
  | .pair car cdr => ' ' :: schemeObjToString car ++ cdr.tailText
  | .null => []
  | d => ' ' :: '.' :: ' ' :: atomToString d

theorem cellsToString_eq (hd : d.Plain) : ' ' :: cellsToString d = d.tailText ++ [' '] := by
  induction d with
  | pair car cdr _ ih =>
    rw [cellsToString, Datum.tailText, ih hd.2]
    simp only [List.cons_append, List.append_assoc]
  | null | bool | int | symbol => rfl
  | void | char | string | vector => exact hd.elim

theorem schemeObjToString_pair (hcdr : cdr.Plain) : schemeObjToString (.pair car cdr) =
    '(' :: schemeObjToString car ++ cdr.tailText ++ [')'] := by
  rw [schemeObjToString, cellsToString_eq hcdr, endList, ← List.append_assoc,
    List.dropLast_concat]

/-! ## The lexemes of a datum derive it -/

/-- What follows the first element of a list: the other elements, and then the bracket or a dot. -/
def DerivesTail (lax more : Prop) (d : Datum) : Prop :=
  ∀ us, (∃ ds, d = .ofList ds .null ∧
      Derives lax more .elems (d.tailLexemes ++ ⟨.rightPar, .void⟩ :: us) ds
        (⟨.rightPar, .void⟩ :: us)) ∨
    ∃ ds e p vs, d = .ofList ds e ∧ p.type = .point ∧
      Derives lax more .elems (d.tailLexemes ++ ⟨.rightPar, .void⟩ :: us) ds (p :: vs) ∧
      Derives lax more .datum vs [e] (⟨.rightPar, .void⟩ :: us)

/-- The lexeme of an atom. -/
theorem derives_atom (hatom : (atomLexeme d).type.IsAtom) (hobj : (atomLexeme d).obj = d)
    (hlex : d.lexemes = [atomLexeme d])
    (htail : d.tailLexemes = [.word .point ['.'], atomLexeme d]) :
    (∀ us, Derives lax more .datum (d.lexemes ++ us) [d] us) ∧ DerivesTail lax more d := by
  have hdatum : ∀ us, Derives lax more .datum (atomLexeme d :: us) [d] us := fun us => by
    have h : Derives lax more .datum (atomLexeme d :: us) [(atomLexeme d).obj] us := .atom hatom
    rwa [hobj] at h
  refine ⟨fun us => hlex ▸ hdatum us,
    fun us => .inr ⟨[], d, .word .point ['.'], _, rfl, rfl, ?_, hdatum _⟩⟩
  rw [htail]
  exact .elemsNil

/-- **The lexemes of a plain datum derive it**, whatever comes after them. -/
theorem derives_lexemes (hd : d.Plain) :
    (∀ us, Derives lax more .datum (d.lexemes ++ us) [d] us) ∧ DerivesTail lax more d := by
  induction d with
  | null =>
    refine ⟨fun us => ?_, fun us => .inl ⟨[], rfl, .elemsNil⟩⟩
    exact @Derives.list lax more _ _ [] _ _ rfl .elemsNil rfl
  | bool b => cases b <;> exact derives_atom (by simp [TokenType.IsAtom, atomLexeme]) rfl rfl rfl
  | int m =>
    have hword : atomLexeme (.int m) = ⟨.number, .int m⟩ := (word_int hd).2.2
    exact derives_atom (by simp [TokenType.IsAtom, hword]) (by rw [hword]) rfl rfl
  | symbol name =>
    have hword : atomLexeme (.symbol name) = ⟨.symbol, .symbol name⟩ := word_symbol hd
    exact derives_atom (by simp [TokenType.IsAtom, hword]) (by rw [hword]) rfl rfl
  | pair car cdr ihcar ihcdr =>
    have hcar := (ihcar hd.1).1
    have htail := (ihcdr hd.2).2
    constructor
    · intro us
      simp only [Datum.lexemes, List.cons_append, List.append_assoc, List.nil_append]
      rcases htail us with ⟨ds, heq, hds⟩ | ⟨ds, e, p, vs, heq, hp, hds, he⟩
      · have hof : Datum.pair car cdr = .ofList (car :: ds) .null := congrArg (Datum.pair car) heq
        rw [hof]
        exact .list rfl (.elemsCons (hcar _) hds) rfl
      · have hof : Datum.pair car cdr = .ofList (car :: ds) e := congrArg (Datum.pair car) heq
        rw [hof]
        exact .dotted rfl (.elemsCons (hcar _) hds) (List.cons_ne_nil car ds) hp he rfl
    · intro us
      rw [Datum.tailLexemes, List.append_assoc]
      rcases htail us with ⟨ds, heq, hds⟩ | ⟨ds, e, p, vs, heq, hp, hds, he⟩
      · exact .inl ⟨car :: ds, by rw [heq]; rfl, .elemsCons (hcar _) hds⟩
      · exact .inr ⟨car :: ds, e, p, vs, by rw [heq]; rfl, hp, .elemsCons (hcar _) hds, he⟩
  | void | char | string | vector => exact hd.elim

/-! ## Texts that leave the lexer with their lexemes

One lemma for each kind of datum, in front of any text that may follow it. -/

/-- The lexer has come to the end of a token; a word may still be open. -/
def Lexer.At (l : Lexer) (e : ℕ) (xs : List Lexeme) (stack : ℤ) (port : List Char) : Prop :=
  l.Between e xs stack port ∨
    ∃ ys t w, xs = ys ++ [.word t w] ∧ t.IsWord ∧ l.Within e ys t w stack port

namespace Lexer.At

theorem goes_space (h : l.At e xs stack (' ' :: rest)) (hstack : stack ≠ 0)
    (he : e ≤ rest.length) : ∃ l', l.Goes l' ∧ l'.Between e xs stack rest := by
  rcases h with h | ⟨ys, t, w, rfl, ht, h⟩
  · exact h.goes_space (by decide) (by decide) (by decide)
  · exact h.goes_space ht hstack he

theorem closes (h : l.At e xs stack (')' :: rest)) (hi : xs.length < lexTokenMax)
    (he : e ≤ rest.length) : l.Closes e (xs ++ [⟨.rightPar, .void⟩]) (stack - 1) rest := by
  rcases h with h | ⟨ys, t, w, rfl, ht, h⟩
  · exact h.closes hi
  · exact h.closes ht (by simpa using hi) he

end Lexer.At

/-- How the lexer comes to the end of a datum. -/
inductive Ending where
  /-- at a bracket -/
  | bracket
  /-- at the character after a word -/
  | word
  /-- only at the end of the text, or with the datum after it -/
  | mark
  deriving DecidableEq

/-- Where the lexer is after a datum with the lexemes `xs` at its end. -/
def Lexer.EndsAt (l : Lexer) (e : ℕ) (xs : List Lexeme) (stack : ℤ) (rest : List Char) :
    Ending → Prop
  | .bracket => l.Closes e xs stack rest
  | .word => ∃ ys t w, xs = ys ++ [.word t w] ∧ t.IsWord ∧ l.Within e ys t w stack rest
  | .mark => l.Between e xs stack rest

/-- The text of a datum leaves the lexer with the lexemes `ys`. -/
def LexesAs (ending : Ending) (text : List Char) (ys : List Lexeme) : Prop :=
  ∀ (l : Lexer) (e : ℕ) (xs : List Lexeme) (stack : ℤ) (rest : List Char), 0 ≤ stack →
    xs.length + ys.length < lexTokenMax → e ≤ rest.length → l.Between e xs stack (text ++ rest) →
    ∃ l', l.Goes l' ∧ l'.EndsAt e (xs ++ ys) stack rest ending

/-- So does what follows an element of a list, but for the bracket. -/
def LexesTail (text : List Char) (ys : List Lexeme) : Prop :=
  ∀ (l : Lexer) (e : ℕ) (xs : List Lexeme) (stack : ℤ) (rest : List Char), 1 ≤ stack →
    xs.length + ys.length < lexTokenMax → e ≤ rest.length → l.At e xs stack (text ++ rest) →
    ∃ l', l.Goes l' ∧ l'.At e (xs ++ ys) stack rest

variable {text text' : List Char} {ys zs : List Lexeme} {ending : Ending}

theorem LexesAs.word (hne : w ≠ []) (hw : ∀ c ∈ w, NameChar c) :
    LexesAs .word w [.word (wordType w) w] := by
  intro l e xs stack rest hstack hi he h
  rw [List.length_singleton] at hi
  obtain ⟨l', hgoes, h'⟩ := h.goes_word (by omega) hne hw he
  exact ⟨l', hgoes, xs, _, _, rfl, wordType_isWord, h'⟩

theorem LexesAs.bool (b : Bool) :
    LexesAs .mark (atomToString (.bool b)) [⟨if b then .true else .false, .bool b⟩] := by
  intro l e xs stack rest hstack hi he h
  rw [List.length_singleton] at hi
  have hbool : l.Between e xs stack ('#' :: (if b then 't' else 'f') :: rest) := by
    cases b <;> exact h
  exact hbool.goes_bool (by omega)

theorem LexesAs.null : LexesAs .bracket ['(', ')'] [⟨.leftPar, .void⟩, ⟨.rightPar, .void⟩] := by
  intro l e xs stack rest hstack hi he h
  simp only [List.length_cons, List.length_nil] at hi
  have hopen : l.Between e xs stack ('(' :: ')' :: rest) := h
  obtain ⟨l₁, hgoes₁, h₁⟩ := hopen.goes_open (by omega)
  have hcloses := h₁.closes (by
    simp only [List.length_append, List.length_cons, List.length_nil]
    omega)
  rw [add_sub_cancel_right, List.append_assoc] at hcloses
  exact ⟨l₁, hgoes₁, hcloses⟩

/-- A quoted datum ends as the datum does. -/
theorem LexesAs.quote (h : LexesAs ending text ys) :
    LexesAs ending ('\'' :: text) (⟨.quote, .void⟩ :: ys) := by
  intro l e xs stack rest hstack hi he hl
  rw [List.length_cons] at hi
  rw [List.cons_append] at hl
  obtain ⟨l₁, hgoes₁, h₁⟩ := hl.goes_quote (by omega)
  obtain ⟨l₂, hgoes₂, h₂⟩ := h l₁ e _ stack rest hstack
    (by rw [List.length_append, List.length_singleton]; omega) he h₁
  rw [List.append_assoc] at h₂
  exact ⟨l₂, hgoes₁.trans hgoes₂, h₂⟩

/-- A datum in a list. -/
theorem LexesAs.at (h : LexesAs ending text ys) (hstack : 1 ≤ stack)
    (hi : xs.length + ys.length < lexTokenMax) (he : e ≤ rest.length)
    (hl : l.Between e xs stack (text ++ rest)) :
    ∃ l', l.Goes l' ∧ l'.At e (xs ++ ys) stack rest := by
  obtain ⟨l₁, hgoes₁, h₁⟩ := h l e xs stack rest (by omega) hi he hl
  cases ending with
  | bracket =>
    obtain ⟨l₂, hgoes₂, h₂⟩ := h₁.goes (by omega)
    exact ⟨l₂, hgoes₁.trans hgoes₂, .inl h₂⟩
  | word => exact ⟨l₁, hgoes₁, .inr h₁⟩
  | mark => exact ⟨l₁, hgoes₁, .inl h₁⟩

theorem LexesTail.nil : LexesTail [] [] := by
  intro l e xs stack rest hstack hi he h
  exact ⟨l, fun _ h => h, by rw [List.append_nil]; exact h⟩

theorem LexesTail.cons (h : LexesAs ending text ys) (h' : LexesTail text' zs) :
    LexesTail (' ' :: text ++ text') (ys ++ zs) := by
  intro l e xs stack rest hstack hi he hl
  rw [List.length_append] at hi
  rw [List.cons_append, List.cons_append, List.append_assoc] at hl
  obtain ⟨l₁, hgoes₁, h₁⟩ := hl.goes_space (by omega)
    (by simp only [List.length_append]; omega)
  obtain ⟨l₂, hgoes₂, h₂⟩ := h.at hstack (by omega) (by rw [List.length_append]; omega) h₁
  obtain ⟨l₃, hgoes₃, h₃⟩ := h' l₂ e _ stack rest hstack (by rw [List.length_append]; omega) he h₂
  rw [List.append_assoc] at h₃
  exact ⟨l₃, (hgoes₁.trans hgoes₂).trans hgoes₃, h₃⟩

theorem LexesTail.dot (h : LexesAs ending text ys) :
    LexesTail (' ' :: '.' :: ' ' :: text) (.word .point ['.'] :: ys) := by
  intro l e xs stack rest hstack hi he hl
  rw [List.length_cons] at hi
  simp only [List.cons_append] at hl
  have hlen : e ≤ (text ++ rest).length := by
    rw [List.length_append]
    omega
  obtain ⟨l₁, hgoes₁, h₁⟩ := hl.goes_space (by omega)
    (by simp only [List.length_cons]; omega)
  obtain ⟨l₂, hgoes₂, h₂⟩ := h₁.goes_point (by omega) (by rw [List.length_cons]; omega)
  obtain ⟨l₃, hgoes₃, h₃⟩ := h₂.goes_space (.inr (.inr rfl)) (by omega) hlen
  obtain ⟨l₄, hgoes₄, h₄⟩ := h.at hstack
    (by rw [List.length_append, List.length_singleton]; omega) he h₃
  rw [List.append_assoc] at h₄
  exact ⟨l₄, ((hgoes₁.trans hgoes₂).trans hgoes₃).trans hgoes₄, h₄⟩

/-- **A list**: its first element, what follows it, and the bracket. -/
theorem LexesAs.list (h : LexesAs ending text ys) (h' : LexesTail text' zs) :
    LexesAs .bracket ('(' :: text ++ text' ++ [')'])
      (⟨.leftPar, .void⟩ :: ys ++ zs ++ [⟨.rightPar, .void⟩]) := by
  intro l e xs stack rest hstack hi he hl
  simp only [List.length_append, List.length_cons, List.length_nil] at hi
  simp only [List.cons_append, List.append_assoc, List.nil_append] at hl
  obtain ⟨l₁, hgoes₁, h₁⟩ := hl.goes_open (by omega)
  obtain ⟨l₂, hgoes₂, h₂⟩ := h.at (by omega)
    (by simp only [List.length_append, List.length_cons, List.length_nil]; omega)
    (by simp only [List.length_append, List.length_cons]; omega) h₁
  obtain ⟨l₃, hgoes₃, h₃⟩ := h' l₂ e _ _ (')' :: rest) (by omega)
    (by simp only [List.length_append, List.length_cons, List.length_nil]; omega)
    (by rw [List.length_cons]; omega) h₂
  have hcloses := h₃.closes (by
    simp only [List.length_append, List.length_cons, List.length_nil]
    omega) he
  refine ⟨l₃, (hgoes₁.trans hgoes₂).trans hgoes₃, ?_⟩
  rw [add_sub_cancel_right] at hcloses
  simpa only [Lexer.EndsAt, List.append_assoc, List.cons_append, List.nil_append] using hcloses

/-- The rest of the port starts with white space, or is empty. -/
def Delimited (rest : List Char) : Prop :=
  ∀ c ∈ rest.head?, isspace c ∧ c ≠ EOF ∧ c ≠ '\x00'

/-- The delimiter before a text is passed over. -/
theorem Lexer.Goes.delimiter {c : Char} (hport : l.port = c :: rest) (hstat : l.stat = false)
    (hc : Delimited [c]) : l.Goes { l with port := rest } := by
  obtain ⟨hspace, hEOF, hnul⟩ := hc c rfl
  refine fun l₁ hl₁ => .succ (.run_bind (run_getChar hport hnul) (.ite_neg hEOF (.succ ?_)))
  refine .ite_pos hspace (.run_bind rfl (.ite_neg ?_ hl₁))
  rw [hstat]
  exact Bool.false_ne_true

/-- **The text of a datum by itself**: the loop ends behind it, or behind the delimiter or the NUL.
A mark has to be the end of the text. -/
theorem LexesAs.ends (h : LexesAs ending text ys) (hi : ys.length < lexTokenMax)
    (hrest : Delimited rest ∨ AtEnd rest) (hmark : ending = .mark → AtEnd rest)
    (hgoes₀ : l₀.Goes l) (hl : l.Between rest.length [] 0 (text ++ rest)) :
    ∃ l₁, Ends lexTokens l₀ () l₁ ∧ l₁.toBuffers.Holds 0 ys ∧
      (l₁.port = rest ∨ l₁.port = rest.tail) := by
  obtain ⟨l', hgoes, h'⟩ := h l _ [] 0 rest le_rfl (by simpa using hi) le_rfl hl
  replace hgoes := hgoes₀.trans hgoes
  rw [List.nil_append] at h'
  cases ending with
  | bracket =>
    obtain ⟨l₂, hends, hwritten, hstat, hport⟩ := Lexer.Closes.ends h'
    obtain ⟨l₁, hl₁, hholds, hport₁⟩ := ends_lexTokens (hgoes _ hends) hwritten hstat hi
    exact ⟨l₁, hl₁, hholds, .inl (hport₁.trans hport)⟩
  | word =>
    obtain ⟨zs, t, w, rfl, ht, hw⟩ := h'
    have hatEnd (hend : AtEnd rest) : ∃ l₁, Ends lexTokens l₀ () l₁ ∧
        l₁.toBuffers.Holds 0 (zs ++ [.word t w]) ∧ (l₁.port = rest ∨ l₁.port = rest.tail) := by
      obtain ⟨l₁, hl₁, hholds, hport⟩ := hw.ends hend le_rfl hgoes ht (by simpa using hi)
      exact ⟨l₁, hl₁, hholds, .inr hport⟩
    refine hrest.elim (fun hdelimited => ?_) hatEnd
    cases rest with
    | nil => exact hatEnd .nil
    | cons c rest =>
      obtain ⟨hspace, hEOF, hnul⟩ := hdelimited c rfl
      obtain ⟨l₂, hends, hwritten, hstat, hport⟩ := hw.ends_space ht hspace hEOF hnul le_rfl
      obtain ⟨l₁, hl₁, hholds, hport₁⟩ := ends_lexTokens (hgoes _ hends) hwritten hstat hi
      exact ⟨l₁, hl₁, hholds, .inr (hport₁.trans hport)⟩
  | mark =>
    have hends := ends_of_atEnd (l := l') (h'.port.symm ▸ hmark rfl)
    obtain ⟨l₁, hl₁, hholds, hport⟩ := ends_lexTokens (hgoes _ hends)
      (h'.written.mono rfl le_rfl (fun _ _ => rfl) fun _ _ => rfl) h'.stat hi
    rw [h'.port] at hport
    exact ⟨l₁, hl₁, hholds, .inr hport⟩

/-- **One read** of a text whose lexemes derive the datum, with or without a delimiter before it. -/
theorem LexesAs.schemeRead (h : LexesAs ending text ys) (hi : ys.length < lexTokenMax)
    (hroom : text.length < schemeMaxExprLen) (hderives : Derives True False .datum ys [d] [])
    (hrest : Delimited rest ∨ AtEnd rest) (hmark : ending = .mark → AtEnd rest)
    (hport : port = text ++ rest ∨ ∃ c, Delimited [c] ∧ port = c :: (text ++ rest)) (b : Buffers) :
    ∃ b' port', (∃ N, ∀ n, N ≤ n → SchemeOs.schemeRead n b port = some (d, b', port')) ∧
      (port' = rest ∨ port' = rest.tail) := by
  have hgoes : Lexer.Goes ⟨b, port, 0, 0, 0, false, false, false⟩
      ⟨b, text ++ rest, 0, 0, 0, false, false, false⟩ := by
    rcases hport with rfl | ⟨c, hc, rfl⟩
    · exact fun _ h => h
    · exact .delimiter rfl rfl hc
  obtain ⟨l₁, ⟨N, hlex⟩, hholds, hport⟩ := h.ends hi hrest hmark hgoes
    ⟨⟨rfl, nofun⟩, rfl, rfl, rfl, rfl, by simp only [List.length_append]; omega, rfl⟩
  obtain ⟨e, M, hread⟩ := hderives.readTokens hholds
  refine ⟨l₁.toBuffers, l₁.port, ⟨max N M, fun n hn => ?_⟩, hport⟩
  have hlex' := hlex n ((Nat.le_max_left N M).trans hn)
  have hread' := hread n ((Nat.le_max_right N M).trans hn)
  simp only [SchemeOs.schemeRead, makeTokenSeq, hlex', Option.map_some, Option.bind_some, hread']

/-! ## The round trip -/

/-- The text of a plain datum, in a list and after an element of one. -/
theorem lexesAs_plain (hd : d.Plain) :
    (∃ ending, LexesAs ending (schemeObjToString d) d.lexemes) ∧
      LexesTail d.tailText d.tailLexemes := by
  induction d with
  | null => exact ⟨⟨_, .null⟩, .nil⟩
  | bool b => exact ⟨⟨_, .bool b⟩, .dot (.bool b)⟩
  | int m =>
    obtain ⟨hw, hne, -⟩ := word_int hd
    exact ⟨⟨_, .word hne hw⟩, .dot (.word hne hw)⟩
  | symbol name => exact ⟨⟨_, .word hd.ne_nil hd.nameChar⟩, .dot (.word hd.ne_nil hd.nameChar)⟩
  | pair car cdr ihcar ihcdr =>
    obtain ⟨⟨ending, hcar⟩, -⟩ := ihcar hd.1
    obtain ⟨-, hcdr⟩ := ihcdr hd.2
    refine ⟨⟨.bracket, ?_⟩, .cons hcar hcdr⟩
    rw [schemeObjToString_pair hd.2]
    exact .list hcar hcdr
  | void | char | string | vector => exact hd.elim

/-- **What is printed is read**: with room in the arrays, the text of a plain datum is read as that
datum, whatever earlier reads have left in the arrays and whatever lies behind the text. -/
theorem gives_print_iff (hd : d.Plain) (htokens : d.lexemes.length < lexTokenMax)
    (htext : (schemeObjToString d).length < schemeMaxExprLen) (hrest : AtEnd rest) (b : Buffers)
    (d' : Datum) : Gives b (schemeObjToString d ++ rest) d' ↔ d' = d := by
  obtain ⟨⟨ending, hlexes⟩, -⟩ := lexesAs_plain hd
  have hderives : Derives True False .datum d.lexemes [d] [] := by
    have h := (@derives_lexemes d True False hd).1 []
    rwa [List.append_nil] at h
  obtain ⟨b', port', ⟨N, hread⟩, -⟩ :=
    hlexes.schemeRead htokens htext hderives (.inr hrest) (fun _ => hrest) (.inl rfl) b
  have hgives : Gives b (schemeObjToString d ++ rest) d :=
    ⟨N, by rw [hread N le_rfl, Option.map_some]⟩
  constructor
  · exact fun h => h.unique hgives
  · rintro rfl
    exact hgives

theorem gives_print_iff_list :
    Gives .init "(a . 7)\x00(b".toList (.pair (.symbol ['a']) (.int 7)) :=
  (gives_print_iff (d := .pair (.symbol ['a']) (.int 7))
    ⟨⟨by decide, by simpa using ⟨by decide, by decide, by decide⟩, by decide⟩, by decide, by decide⟩
    (by decide) (by decide) (@AtEnd.nul "(b".toList) .init _).mpr rfl

end SchemeOs
