import SchemeOs.Reader.RoundTrip

/-!
# Reader/Successive — reading one datum after the other

The reads of a port that holds several data find the lexer between two tokens, at the delimiter or
behind it.  Words and brackets end where they should; a boolean ends only with what follows it.
-/

namespace SchemeOs

variable {l l' : Lexer} {xs ys : List Lexeme} {stack : ℤ} {rest w name port text : List Char}
  {d car cdr : Datum} {c : Char} {e m n : ℕ} {tail : Bool}

/-! ## External representations

Besides the text that the printer gives there are numbers with leading zeros, and quote marks. -/

/-- A name that is neither a number nor a dot. -/
structure IsSymbol (name : List Char) : Prop where
  ne_nil : name ≠ []
  printable : ∀ c ∈ name, 0x21 ≤ c.toNat ∧ c.toNat ≤ 0x7e ∧ c ∉ ['(', ')', '"', '\'', '`', ',']
  start : ∀ c ∈ name.head?, isdigit c = false ∧ c ≠ '#'
  notNumber : name.head? = some '-' → name.tail.all isdigit → name = ['-']
  notPoint : name ≠ ['.']

/-- The text of a string, but for the quotes. -/
def escaped (text : List Char) : List Char :=
  text.flatMap fun c => if c = '"' ∨ c = '\\' then ['\\', c] else [c]

/-- The text is one of the datum, or of what follows an element of a list where `tail`, and has
`n` tokens. -/
inductive External : Bool → Datum → List Char → ℕ → Prop where
  | numeral {w : List Char} (hne : w ≠ []) (hw : w.all isdigit) :
      External false (.int (digitsVal 0 w)) w 1
  | negative {w : List Char} (hw : w.all isdigit) (hpos : 0 < digitsVal 0 w) :
      External false (.int (-digitsVal 0 w)) ('-' :: w) 1
  | symbol {name : List Char} (h : IsSymbol name) : External false (.symbol name) name 1
  | bool {b : Bool} : External false (.bool b) (atomToString (.bool b)) 1
  | char {c : Char} : External false (.char c) (atomToString (.char c)) 1
  | string {text : List Char} : External false (.string text) ('"' :: escaped text ++ ['"']) 1
  | quote {d : Datum} {text : List Char} {n : ℕ} (h : External false d text n) :
      External false d.quoted ('\'' :: text) (1 + n)
  | null : External false .null ['(', ')'] 2
  | list {car cdr : Datum} {text text' : List Char} {m n : ℕ} (h : External false car text m)
      (h' : External true cdr text' n) :
      External false (.pair car cdr) ('(' :: text ++ text' ++ [')']) (1 + m + n + 1)
  | tailNil : External true .null [] 0
  | tailCons {car cdr : Datum} {text text' : List Char} {m n : ℕ} (h : External false car text m)
      (h' : External true cdr text' n) :
      External true (.pair car cdr) (' ' :: text ++ text') (m + n)
  | tailDot {d : Datum} {text : List Char} {n : ℕ} (h : External false d text n) :
      External true d (' ' :: '.' :: ' ' :: text) (1 + n)

/-- The datum has only names and numbers in it that are read as such, and neither characters nor
strings. -/
def Datum.Readable : Datum → Prop
  | .int n => 0 ≤ n ∧ n < 2 ^ 31
  | .symbol name => '@' ∉ name ∧ name.head? ≠ some '.'
  | .bool _ | .null => True
  | .pair car cdr => car.Readable ∧ cdr.Readable
  | _ => False

/-- The text is that of a boolean or a character, quoted or not. -/
def Sharp (text : List Char) : Prop := (text.dropWhile (· = '\'')).head? = some '#'

theorem Datum.readable_quoted : d.quoted.Readable ↔ d.Readable := by
  refine ⟨fun h => h.2.1, fun h => ⟨⟨by decide, by decide⟩, h, trivial⟩⟩

/-! ## Names -/

/-- A character after the first one of a name. -/
def PartChar (c : Char) : Prop := NameChar c ∨ c = '#' ∨ c = '.'

namespace Lexer.Within

/-- The next character of a name. -/
theorem goes_part (h : l.Within e xs .symbol w stack (c :: rest)) (hw : w.all isdigit = false)
    (hc : PartChar c) (he : e ≤ rest.length) :
    ∃ l', l.Goes l' ∧ l'.Within e xs .symbol (w ++ [c]) stack rest := by
  have hsymbol : ∀ v, wordType (w ++ v) = .symbol := fun v => by
    rw [wordType, List.all_append, hw, Bool.false_and, if_neg Bool.false_ne_true]
  have hroom : l.s < schemeMaxExprLen := by
    have := h.room
    rw [List.length_cons] at this
    omega
  rcases hc with hc | rfl | rfl
  · have hword : l.Within e xs (wordType w) w stack (c :: rest) := by
      have := hsymbol []
      rw [List.append_nil] at this
      rwa [this]
    obtain ⟨l', hgoes, h'⟩ := hword.goes_char hc he
    rw [hsymbol] at h'
    exact ⟨l', hgoes, h'⟩
  · have hput := h.put (by decide)
    refine ⟨_, .of_switch h.port (by decide) (by decide) (by decide) (by decide) (fun n => ?_)
      hput.finished, hput⟩
    change StateT.run (if l.stat = true then _ else _) _ = _
    rw [if_pos h.stat]
    exact run_putChar (l := { l with port := rest }) hroom
  · have hput := h.put (by decide)
    refine ⟨_, .of_switch h.port (by decide) (by decide) (by decide) (by decide) (fun n => ?_)
      hput.finished, hput⟩
    change StateT.run (if l.stat = false then _ else _) _ = _
    rw [if_neg (by rw [h.stat]; decide)]
    change StateT.run (if l.isfloat = true then _ else _) _ = _
    rw [if_neg (by rw [h.isfloat]; decide), StateT.run_bind, h.withPort.run_tokenType]
    exact run_putChar (l := { l with port := rest }) hroom

theorem goes_parts {u : List Char} (h : l.Within e xs .symbol w stack (u ++ rest))
    (hw : w.all isdigit = false) (hu : ∀ c ∈ u, PartChar c) (he : e ≤ rest.length) :
    ∃ l', l.Goes l' ∧ l'.Within e xs .symbol (w ++ u) stack rest := by
  induction u generalizing l w with
  | nil => exact ⟨l, fun _ h => h, by rw [List.append_nil]; exact h⟩
  | cons c u ih =>
    rw [List.cons_append] at h
    obtain ⟨l', hgoes, h'⟩ := h.goes_part hw (hu c List.mem_cons_self)
      (by rw [List.length_append]; omega)
    obtain ⟨l₁, hgoes₁, h₁⟩ := ih h' (by rw [List.all_append, hw, Bool.false_and])
      fun d hd => hu d (List.mem_cons_of_mem c hd)
    rw [List.append_assoc] at h₁
    exact ⟨l₁, hgoes.trans hgoes₁, h₁⟩

end Lexer.Within

theorem IsSymbol.chars (h : IsSymbol name) (hd : (Datum.symbol name).Readable) :
    ∃ c u, name = c :: u ∧ NameChar c ∧ isdigit c = false ∧ ∀ c' ∈ u, PartChar c' := by
  obtain ⟨c, u, rfl⟩ := List.exists_cons_of_ne_nil h.ne_nil
  obtain ⟨hat, hpoint⟩ := hd
  have hpart : ∀ c' ∈ c :: u, PartChar c' := fun c' hc' => by
    obtain ⟨hge, hle, hmem⟩ := h.printable c' hc'
    have hne : c' ≠ '@' := fun heq => hat (heq ▸ hc')
    by_cases hsharp : c' = '#'
    · exact .inr (.inl hsharp)
    · by_cases hdot : c' = '.'
      · exact .inr (.inr hdot)
      · refine .inl ⟨hge, hle, ?_⟩
        simp only [List.mem_cons, List.not_mem_nil, or_false, not_or] at hmem ⊢
        tauto
  obtain ⟨hdigit, hsharp⟩ := h.start c rfl
  have hdot : c ≠ '.' := fun heq => hpoint (by rw [heq]; rfl)
  refine ⟨c, u, rfl, ?_, hdigit, fun c' hc' => hpart c' (List.mem_cons_of_mem c hc')⟩
  exact (hpart c List.mem_cons_self).resolve_right (not_or.mpr ⟨hsharp, hdot⟩)

theorem LexesAs.symbol (h : IsSymbol name) (hd : (Datum.symbol name).Readable) :
    LexesAs .word name [⟨.symbol, .symbol name⟩] := by
  obtain ⟨c, u, rfl, hc, hdigit, hu⟩ := h.chars hd
  intro l e xs stack rest hstack hi he hl
  have hall : [c].all isdigit = false := by rw [List.all_cons, hdigit, Bool.false_and]
  rw [List.length_singleton] at hi
  have hl' : l.Between e xs stack ([c] ++ (u ++ rest)) := hl
  obtain ⟨l₁, hgoes₁, h₁⟩ := hl'.goes_word (by omega)
    (List.cons_ne_nil _ _) (List.forall_mem_singleton.mpr hc)
    (by rw [List.length_append]; omega)
  rw [wordType, hall, if_neg Bool.false_ne_true] at h₁
  obtain ⟨l₂, hgoes₂, h₂⟩ := h₁.goes_parts hall hu he
  exact ⟨l₂, hgoes₁.trans hgoes₂, xs, .symbol, c :: u, rfl, .inl rfl, h₂⟩

theorem LexesAs.numeral (hne : w ≠ []) (hw : w.all isdigit) (hlt : digitsVal 0 w < 2 ^ 31) :
    LexesAs .word w [⟨.number, .int (digitsVal 0 w)⟩] := by
  have hword : Lexeme.word (wordType w) w = ⟨.number, .int (digitsVal 0 w)⟩ := by
    rw [wordType, if_pos hw, Lexeme.word, atoi_eq hw hne hlt]
  rw [← hword]
  exact .word hne fun c hc => nameChar_of_isdigit (List.all_eq_true.mp hw c hc)

/-! ## Data -/

section Derives

variable {lax more : Prop} {part : Part} {ts us vs : List Lexeme} {ds : List Datum} {r : Lexeme}

/-- One more element. -/
theorem Derives.snoc (h : Derives lax more part ts ds us) (hpart : part = .elems)
    (hd : Derives lax more .datum us [d] vs) : Derives lax more .elems ts (ds ++ [d]) vs := by
  induction h with
  | elemsNil => exact .elemsCons hd .elemsNil
  | elemsCons hcar _ _ ih => exact .elemsCons hcar (ih rfl hd)
  | _ => cases hpart

end Derives

/-- The lexemes after some elements of a list, the last of which is there, complete the list. -/
def Completes (ys : List Lexeme) (d : Datum) : Prop :=
  ∀ ⦃b r ts ds us⦄, b.type = .leftPar → r.type = .rightPar → ds ≠ [] →
    Derives True False .elems ts ds (ys ++ r :: us) →
      Derives True False .datum (b :: ts) [.ofList ds d] us

theorem Completes.cons (h : ∀ us, Derives True False .datum (ys ++ us) [car] us)
    (h' : Completes xs cdr) : Completes (ys ++ xs) (.pair car cdr) := by
  intro b r ts ds us hb hr hne hds
  rw [List.append_assoc] at hds
  have hlist := h' hb hr (List.append_ne_nil_of_left_ne_nil hne [car]) (hds.snoc rfl (h _))
  rwa [Datum.ofList, List.foldr_append] at hlist

/-- **The text of a readable datum** leaves the lexer with tokens that derive it. -/
theorem External.lexes (h : External tail d text n) (hd : d.Readable) :
    (tail = false → ∃ ys ending, ys.length = n ∧ LexesAs ending text ys ∧
      (∀ us, Derives True False .datum (ys ++ us) [d] us) ∧ (ending = .mark → Sharp text)) ∧
    (tail = true → ∃ ys, ys.length = n ∧ LexesTail text ys ∧ Completes ys d) := by
  induction h with
  | numeral hne hw =>
    refine ⟨fun _ => ⟨_, _, rfl, .numeral hne hw ?_, fun us => ?_, by simp⟩, by simp⟩
    · have := hd.2
      omega
    · exact .atom (t := ⟨.number, _⟩) (by simp [TokenType.IsAtom])
  | negative hw hpos =>
    have := hd.1
    omega
  | symbol hname =>
    exact ⟨fun _ => ⟨_, _, rfl, .symbol hname hd, fun us =>
      .atom (t := ⟨.symbol, _⟩) (by simp [TokenType.IsAtom]), by simp⟩, by simp⟩
  | @bool b =>
    refine ⟨fun _ => ⟨_, _, rfl, .bool b, fun us => ?_, fun _ => ?_⟩, by simp⟩
    · exact .atom (t := ⟨if b then .true else .false, .bool b⟩)
        (by cases b <;> simp [TokenType.IsAtom])
    · cases b <;> rfl
  | char | string => exact hd.elim
  | quote _ ih =>
    obtain ⟨ys, ending, hlen, hlexes, hderives, hmark⟩ :=
      (ih (Datum.readable_quoted.mp hd)).1 rfl
    refine ⟨fun _ => ⟨_, ending, ?_, hlexes.quote, fun us => .quote rfl (hderives us),
      fun heq => ?_⟩, by simp⟩
    · rw [List.length_cons, hlen, Nat.add_comm]
    · exact hmark heq
  | null =>
    exact ⟨fun _ => ⟨_, _, rfl, .null,
      fun us => @Derives.list True False _ _ [] _ _ rfl .elemsNil rfl, by simp⟩, by simp⟩
  | list _ _ ih ih' =>
    obtain ⟨ys, ending, hlen, hlexes, hderives, -⟩ := (ih hd.1).1 rfl
    obtain ⟨zs, hlen', hlexes', hcompletes⟩ := (ih' hd.2).2 rfl
    refine ⟨fun _ => ⟨_, _, ?_, hlexes.list hlexes', fun us => ?_, by simp⟩, by simp⟩
    · simp only [List.length_append, List.length_cons, List.length_nil, hlen, hlen']
      omega
    · simp only [List.cons_append, List.append_assoc, List.nil_append]
      exact hcompletes rfl rfl (List.cons_ne_nil _ _) (.elemsCons (hderives _) .elemsNil)
  | tailNil =>
    exact ⟨by simp, fun _ => ⟨[], rfl, .nil, fun _ _ _ _ _ hb hr _ hds => .list hb hds hr⟩⟩
  | tailCons _ _ ih ih' =>
    obtain ⟨ys, ending, hlen, hlexes, hderives, -⟩ := (ih hd.1).1 rfl
    obtain ⟨zs, hlen', hlexes', hcompletes⟩ := (ih' hd.2).2 rfl
    exact ⟨by simp, fun _ => ⟨ys ++ zs, by rw [List.length_append, hlen, hlen'],
      .cons hlexes hlexes',
      .cons hderives hcompletes⟩⟩
  | tailDot _ ih =>
    obtain ⟨ys, ending, hlen, hlexes, hderives, -⟩ := (ih hd).1 rfl
    refine ⟨by simp, fun _ => ⟨_, ?_, .dot hlexes, fun _ _ _ _ _ hb hr hne hds => ?_⟩⟩
    · rw [List.length_cons, hlen, Nat.add_comm]
    · exact .dotted hb hds hne rfl (hderives _) hr

/-! ## Successive reads

Each read leaves the port at the delimiter behind its datum, and the arrays in some state. -/

/-- A delimiter and a datum after it. -/
structure Entry where
  delimiter : Char
  text : List Char
  datum : Datum
  /-- the number of its tokens -/
  tokens : ℕ
  isspace : isspace delimiter
  external : External false datum text tokens

/-- The port that holds the data, each with the delimiter before it. -/
def portOf : List Entry → List Char
  | [] => []
  | x :: xs => x.delimiter :: (x.text ++ portOf xs)

/-- **The reads return the data one by one**, and each of them leaves the port behind its datum or
behind the delimiter after that.  Behind the last datum there is `rest`: the NUL of the text, and
memory that is not its own. -/
def ReadsEach (rest : List Char) : Buffers → List Char → List Entry → Prop
  | _, _, [] => True
  | b, port, x :: xs => ∃ b' port', (∃ N, ∀ n, N ≤ n →
      schemeRead n b port = some (x.datum, b', port')) ∧
        (port' = portOf xs ++ rest ∨ port' = (portOf xs ++ rest).tail) ∧
        ReadsEach rest b' port' xs

/-- The datum is readable, and there is room for it in the arrays. -/
structure Entry.Readable (x : Entry) : Prop where
  datum : x.datum.Readable
  tokens : x.tokens < lexTokenMax
  text : x.text.length < schemeMaxExprLen

/-- The data are readable, and a boolean is the last of them. -/
def Separable (xs : List Entry) : Prop :=
  (∀ x ∈ xs, x.Readable) ∧ ∀ x ∈ xs.dropLast, ¬Sharp x.text

theorem delimited_of_isspace (hc : isspace c) : Delimited (c :: rest) := by
  rintro c' hc'
  cases hc'
  refine ⟨hc, ?_, ?_⟩ <;>
    · rintro rfl
      exact absurd hc (by decide)

theorem delimited_portOf {xs : List Entry} (hrest : AtEnd rest) :
    Delimited (portOf xs ++ rest) ∨ AtEnd (portOf xs ++ rest) := by
  cases xs with
  | nil => exact .inr hrest
  | cons x xs => exact .inl (delimited_of_isspace x.isspace)

/-- **One datum after the other**, from the first delimiter on or from behind it. -/
theorem ReadsEach.of_separable {xs : List Entry} (h : Separable xs) (hrest : AtEnd rest)
    (b : Buffers) (hport : port = (portOf xs ++ rest).tail ∨ port = portOf xs ++ rest) :
    ReadsEach rest b port xs := by
  induction xs generalizing b port with
  | nil => trivial
  | cons x xs ih =>
    obtain ⟨hread, hlast⟩ := h
    obtain ⟨hx, hxs⟩ := List.forall_mem_cons.mp hread
    obtain ⟨ys, ending, hlen, hlexes, hderives, hmark⟩ := (x.external.lexes hx.datum).1 rfl
    have hend : ending = .mark → AtEnd (portOf xs ++ rest) := fun heq => by
      cases xs with
      | nil => exact hrest
      | cons y xs => exact absurd (hmark heq) (hlast x List.mem_cons_self)
    have hall : Derives True False .datum ys [x.datum] [] := by
      have := hderives []
      rwa [List.append_nil] at this
    rw [portOf, List.cons_append, List.append_assoc, List.tail_cons] at hport
    obtain ⟨b', port', hends, hport'⟩ := hlexes.schemeRead (hlen ▸ hx.tokens) hx.text hall
      (delimited_portOf hrest) hend
      (hport.imp_right fun heq => ⟨_, delimited_of_isspace x.isspace, heq⟩) b
    refine ⟨b', port', hends, hport', ih ⟨hxs, fun y hy => ?_⟩ b' hport'.symm⟩
    refine hlast y ?_
    cases xs with
    | nil => cases hy
    | cons z xs => exact List.mem_cons_of_mem x hy

/-- **Data that are readable are read one by one**, whatever earlier reads have left in the arrays
and whatever lies behind the text. -/
theorem readsEach_of_separable {xs : List Entry} (h : Separable xs) (hrest : AtEnd rest)
    (b : Buffers) : ReadsEach rest b (portOf xs ++ rest).tail xs :=
  .of_separable h hrest b (.inl rfl)

/-- `a`, after a delimiter. -/
def nameEntry : Entry where
  delimiter := ' '
  text := ['a']
  datum := .symbol ['a']
  tokens := 1
  isspace := rfl
  external := by
    refine .symbol ⟨by decide, ?_, ?_, by decide, by decide⟩
    · exact List.forall_mem_singleton.mpr ⟨by decide, by decide, by decide⟩
    · rintro c hc
      cases hc
      exact ⟨rfl, by decide⟩

/-- `#t`, after a delimiter. -/
def trueEntry : Entry where
  delimiter := ' '
  text := ['#', 't']
  datum := .bool true
  tokens := 1
  isspace := rfl
  external := .bool

theorem readsEach_of_separable_name :
    ReadsEach ['\x00', 'b'] .init ['a', ' ', '#', 't', '\x00', 'b'] [nameEntry, trueEntry] := by
  refine @readsEach_of_separable _ [nameEntry, trueEntry] ⟨fun x hx => ?_, fun x hx => ?_⟩ .nul
    .init
  · simp only [List.mem_cons, List.not_mem_nil, or_false] at hx
    rcases hx with rfl | rfl
    · exact ⟨⟨by decide, by decide⟩, by decide, by decide⟩
    · exact ⟨trivial, by decide, by decide⟩
  · obtain rfl := List.mem_singleton.mp hx
    simp [Sharp, nameEntry]

/-- In `#t a` the first read takes the name, too. -/
theorem not_readsEach : ¬∀ (rest : List Char) (b : Buffers) (xs : List Entry), AtEnd rest →
    ReadsEach rest b (portOf xs ++ rest).tail xs := by
  intro h
  obtain ⟨b', port', ⟨N, hread⟩, hport, -⟩ := h ['\x00'] .init [trueEntry, nameEntry] .nul
  have hrun : (schemeRead 10 .init ['#', 't', ' ', 'a', '\x00']).map (fun r => r.2.2) =
      some [] := by
    decide +kernel
  obtain ⟨r, hr, hnil⟩ := Option.map_eq_some_iff.mp hrun
  obtain ⟨b₁, hrun'⟩ := schemeRead_le (Buffers.Le.refl .init) (Nat.le_max_right N 10) hr
  have heq := (hread _ (Nat.le_max_left N 10)).symm.trans hrun'
  simp only [Option.some.injEq, Prod.mk.injEq] at heq
  rw [heq.2.2, hnil] at hport
  rcases hport with hport | hport <;> cases hport

end SchemeOs
