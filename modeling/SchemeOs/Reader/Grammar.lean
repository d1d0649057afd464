import SchemeOs.Reader.Parser
import Mathlib.Data.List.Basic

/-!
# Reader/Grammar — the grammar of data, and the parser on it

A sequence of tokens is a list of lexemes: what `_token_to_obj` makes of a token is part of its
lexeme.  `Derives lax more .datum ts [d] us` says that `ts` starts with a datum that reads as `d`,
and that `us` is what comes after it.  With `False` for both this is the grammar of the language.
With `True` it is what the parser takes for it, where `void` stands for what is no datum.
-/

namespace SchemeOs

/-- A token by its type and the object that it stands for. -/
structure Lexeme where
  type : TokenType
  obj : Datum

/-- Tokens that are data by themselves. -/
def TokenType.IsAtom (t : TokenType) : Prop :=
  t = .symbol ∨ t = .true ∨ t = .false ∨ t = .number ∨ t = .char ∨ t = .string

/-- Tokens that the parser neither uses for structure nor takes for data. -/
def TokenType.IsStray (t : TokenType) : Prop :=
  t = .null ∨ t = .backquote ∨ t = .comma ∨ t = .commaAt ∨ t = .number2 ∨ t = .number8 ∨
    t = .number10 ∨ t = .number16 ∨ t = .inexact ∨ t = .exact

/-- `(quote text)`, as `_create_quoted` makes it. -/
abbrev Datum.quoted (text : Datum) : Datum := createQuoted.quoted text

/-! ## Lists under construction -/

/-- A list under construction before its dot. -/
def Cells.proper (cs : List Datum) : Cells := ⟨cs, .null, cs ≠ []⟩

/-- The data can be linked to the list after its dot: each of them comes behind a pair. -/
def Cells.Takes : Cells → List Datum → Prop
  | _, [] => True
  | q, d :: ds => q.cars ≠ [] ∧ q.isPair = true ∧ (q.link d).Takes ds

/-- The list with the data linked to it. -/
def Cells.closed (q : Cells) (ds : List Datum) : Datum :=
  .ofList (ds.foldl Cells.link q).cars (ds.foldl Cells.link q).cdr

/-! ## The grammar

The data that a sequence of tokens derives, as the parser is meant to read it. -/

/-- One datum, the elements of a list, or those of a vector. -/
inductive Part where
  | datum | elems | slots

/-- **The grammar**: `ts` starts with the data `ds`, and `us` is left.  A quote mark with nothing
to quote, a stray token and, inside a vector, a quote mark or a dot are `void` where `lax`.  Where
`more`, there may be no datum after a dot or several. -/
inductive Derives (lax more : Prop) : Part → List Lexeme → List Datum → List Lexeme → Prop where
  | atom {t us} (ht : t.type.IsAtom) : Derives lax more .datum (t :: us) [t.obj] us
  | stray {t us} (hlax : lax) (ht : t.type.IsStray) : Derives lax more .datum (t :: us) [.void] us
  | quote {t d ts us} (ht : t.type = .quote) (h : Derives lax more .datum ts [d] us) :
      Derives lax more .datum (t :: ts) [d.quoted] us
  | quoteNone {t r us} (hlax : lax) (ht : t.type = .quote) (hr : r.type = .rightPar) :
      Derives lax more .datum (t :: r :: us) [.void] (r :: us)
  | quotePoint {t p us} (hlax : lax) (ht : t.type = .quote) (hp : p.type = .point) :
      Derives lax more .datum (t :: p :: us) [Datum.void.quoted] us
  | list {l r ds ts us} (hl : l.type = .leftPar) (h : Derives lax more .elems ts ds (r :: us))
      (hr : r.type = .rightPar) : Derives lax more .datum (l :: ts) [.ofList ds .null] us
  | dotted {l p r d ds ts us vs} (hl : l.type = .leftPar)
      (h : Derives lax more .elems ts ds (p :: us)) (hds : ds ≠ []) (hp : p.type = .point)
      (hd : Derives lax more .datum us [d] (r :: vs)) (hr : r.type = .rightPar) :
      Derives lax more .datum (l :: ts) [.ofList ds d] vs
  | dottedMore {l p r ds es ts us vs} (hmore : more) (hl : l.type = .leftPar)
      (h : Derives lax more .elems ts ds (p :: us)) (hp : p.type = .point)
      (hes : Derives lax more .elems us es (r :: vs)) (htakes : (Cells.proper ds).Takes es)
      (hr : r.type = .rightPar) : Derives lax more .datum (l :: ts) [(Cells.proper ds).closed es] vs
  | vector {l r ds ts us} (hl : l.type = .leftSharpar) (h : Derives lax more .slots ts ds (r :: us))
      (hr : r.type = .rightPar) :
      Derives lax more .datum (l :: ts) [.vector ds.length (.ofList ds .null)] us
  | elemsNil {ts} : Derives lax more .elems ts [] ts
  | elemsCons {d ds ts us vs} (hd : Derives lax more .datum ts [d] us)
      (hds : Derives lax more .elems us ds vs) : Derives lax more .elems ts (d :: ds) vs
  | slotsNil {ts} : Derives lax more .slots ts [] ts
  | slotsCons {d ds ts us vs} (hq : lax → ∀ t ∈ ts.head?, t.type ≠ .quote)
      (hd : Derives lax more .datum ts [d] us) (hds : Derives lax more .slots us ds vs) :
      Derives lax more .slots ts (d :: ds) vs
  | slotsMark {t ds us vs} (hlax : lax) (ht : t.type = .quote ∨ t.type = .point)
      (hds : Derives lax more .slots us ds vs) : Derives lax more .slots (t :: us) (.void :: ds) vs

/-! ## Tokens in the array -/

/-- The slot `k` holds the token. -/
def Buffers.Slot (buffers : Buffers) (k : ℕ) (x : Lexeme) : Prop :=
  ∃ t, buffers.tokens k = some t ∧ t.type = x.type ∧ tokenToObj buffers t = some x.obj

/-- The slots from `k` on hold the tokens and the marker after them. -/
def Buffers.Holds (buffers : Buffers) : ℕ → List Lexeme → Prop
  | k, [] => ∃ t, buffers.tokens k = some t ∧ t.type = .tagEnd
  | k, x :: xs => buffers.Slot k x ∧ buffers.Holds (k + 1) xs

variable {buffers : Buffers} {k k' e : ℕ} {x : Lexeme} {t : TokenType} {d r : Datum}
  {xs ts us : List Lexeme} {cs ds : List Datum}

theorem Buffers.Slot.run_peekType (h : buffers.Slot k x) (ht : x.type = t) :
    (peekType buffers).run k = some (t, k) := by
  obtain ⟨u, hu, htype, -⟩ := h
  simp [peekType, StateT.run, hu, htype, ht]

theorem Buffers.Slot.run_peekObj (h : buffers.Slot k x) :
    (peekObj buffers).run k = some (x.obj, k) := by
  obtain ⟨u, hu, -, hobj⟩ := h
  simp [peekObj, StateT.run, hu, hobj]

theorem Buffers.Holds.isSome (h : buffers.Holds k xs) : ∃ t, buffers.tokens k = some t := by
  cases xs with
  | nil => exact h.imp fun _ ht => ht.1
  | cons x xs => exact h.1.imp fun _ ht => ht.1

theorem run_advance : advance.run k = some ((), k + 1) := rfl

/-- A token that is no datum stands for `void`. -/
theorem Buffers.Slot.obj_eq_void (h : buffers.Slot k x) (hx : ¬x.type.IsAtom) :
    x.obj = .void := by
  obtain ⟨u, hu, htype, hobj⟩ := h
  simp only [TokenType.IsAtom, ← htype, not_or] at hx
  unfold tokenToObj at hobj
  split at hobj <;> simp_all

/-! ## One datum, wherever it stands -/

/-- From `k` on there is a datum `d`, and `k'` is after it: in a list, in a vector unless it starts
with a quote mark, after a quote mark, and by itself. -/
structure ReadsAt (buffers : Buffers) (k : ℕ) (t : TokenType) (d : Datum) (k' : ℕ) : Prop where
  list {issexp : Bool} {q : Cells} {r : Datum} {e : ℕ}
    (h : Ends (fun n => appendList buffers n issexp q d) k' r e) :
    Ends (fun n => createListLoop buffers n issexp q) k r e
  slot {len : ℕ} {fill : List Datum} {r : Datum} {e : ℕ} (ht : t ≠ .quote)
    (h : Ends (fun n => appendVector buffers n len fill d) k' r e) :
    Ends (fun n => createVectorLoop buffers n len fill) k r e
  quoted : Ends (createQuoted buffers) k d.quoted k'
  top : ∃ e, Ends (readTokens buffers) k d e

namespace ReadsAt

theorem of_list (h : buffers.Slot k x) (hx : x.type = .leftPar)
    (hd : Ends (createList buffers) (k + 1) d k') : ReadsAt buffers k x.type d k' where
  list hr := .succ (.run_bind (h.run_peekType hx) (.run_bind run_advance (hd.bind hr)))
  slot _ hr := .succ (.run_bind (h.run_peekType hx) (.run_bind run_advance (hd.bind hr)))
  quoted := .succ (.run_bind (h.run_peekType hx) (.run_bind run_advance (hd.bind .pure)))
  top := ⟨k', .run_bind (h.run_peekType hx) (.run_bind run_advance hd)⟩

theorem of_vector (h : buffers.Slot k x) (hx : x.type = .leftSharpar)
    (hd : Ends (createVector buffers) (k + 1) d k') : ReadsAt buffers k x.type d k' where
  list hr := .succ (.run_bind (h.run_peekType hx) (.run_bind run_advance (hd.bind hr)))
  slot _ hr := .succ (.run_bind (h.run_peekType hx) (.run_bind run_advance (hd.bind hr)))
  quoted := .succ (.run_bind (h.run_peekType hx) (.run_bind run_advance (hd.bind .pure)))
  top := ⟨k', .run_bind (h.run_peekType hx) (.run_bind run_advance hd)⟩

theorem of_quote (h : buffers.Slot k x) (hx : x.type = .quote)
    (hd : Ends (createQuoted buffers) (k + 1) d k') : ReadsAt buffers k x.type d k' where
  list hr := .succ (.run_bind (h.run_peekType hx) (.run_bind run_advance (hd.bind hr)))
  slot hne := absurd hx hne
  quoted := .succ (.run_bind (h.run_peekType hx) (.run_bind run_advance (hd.bind .pure)))
  top := ⟨k', .run_bind (h.run_peekType hx) (.run_bind run_advance hd)⟩

theorem of_obj (h : buffers.Slot k x) (hx : x.type.IsAtom ∨ x.type.IsStray) :
    ReadsAt buffers k x.type x.obj (k + 1) := by
  simp only [TokenType.IsAtom, TokenType.IsStray] at hx
  constructor
  case list =>
    intro issexp q r e hr
    rcases hx with (hx | hx | hx | hx | hx | hx) | (hx | hx | hx | hx | hx | hx | hx | hx | hx | hx)
    all_goals exact .succ (.run_bind (h.run_peekType hx)
      (.run_bind h.run_peekObj (.run_bind run_advance hr)))
  case slot =>
    intro len fill r e _ hr
    rcases hx with (hx | hx | hx | hx | hx | hx) | (hx | hx | hx | hx | hx | hx | hx | hx | hx | hx)
    all_goals exact .succ (.run_bind (h.run_peekType hx)
      (.run_bind h.run_peekObj (.run_bind run_advance hr)))
  case quoted =>
    rcases hx with (hx | hx | hx | hx | hx | hx) | (hx | hx | hx | hx | hx | hx | hx | hx | hx | hx)
    all_goals exact .succ (.run_bind (h.run_peekType hx)
      (.run_bind h.run_peekObj (.run_bind run_advance .pure)))
  case top =>
    rcases hx with (hx | hx | hx | hx | hx | hx) | (hx | hx | hx | hx | hx | hx | hx | hx | hx | hx)
    all_goals exact ⟨k, .run_bind (h.run_peekType hx) (.of_run h.run_peekObj)⟩

end ReadsAt

/-! ## Counting the elements of a vector

The first pass over a vector counts its elements, with the depth of brackets that it is in. -/

/-- `vectorLen` gets from the token `k`, with its variables `par` and `len`, to the token `k'`. -/
def Passes (buffers : Buffers) (k : ℕ) (par : ℤ) (len : ℕ) (k' : ℕ) (par' : ℤ) (len' : ℕ) : Prop :=
  ∃ m, ∀ n, vectorLen buffers (n + m) k par len = vectorLen buffers n k' par' len'

namespace Passes

variable {p p' p'' : ℤ} {l l' l'' k'' : ℕ}

theorem refl : Passes buffers k p l k p l := ⟨0, fun _ => rfl⟩

theorem trans (h : Passes buffers k p l k' p' l')
    (h' : Passes buffers k' p' l' k'' p'' l'') :
    Passes buffers k p l k'' p'' l'' := by
  obtain ⟨m, hm⟩ := h
  obtain ⟨m', hm'⟩ := h'
  exact ⟨m' + m, fun n => by rw [← Nat.add_assoc, hm, hm']⟩

theorem enter (h : buffers.Slot k x) (hx : x.type = .leftPar ∨ x.type = .leftSharpar)
    (hpar : 0 ≤ p) : Passes buffers k p l (k + 1) (p + 1) l := by
  obtain ⟨u, hu, htype, -⟩ := h
  refine ⟨1, fun n => ?_⟩
  rcases hx with hx | hx <;> simp [vectorLen, hu, htype, hx, Int.not_lt.mpr hpar]

theorem leave (h : buffers.Slot k x) (hx : x.type = .rightPar) (hpar : 0 ≤ p) :
    Passes buffers k p l (k + 1) (p - 1) (if p - 1 = 0 then l + 1 else l) := by
  obtain ⟨u, hu, htype, -⟩ := h
  exact ⟨1, fun n => by simp [vectorLen, hu, htype, hx, Int.not_lt.mpr hpar]⟩

theorem step (h : buffers.Slot k x) (hend : x.type ≠ .tagEnd) (hl : x.type ≠ .leftPar)
    (hv : x.type ≠ .leftSharpar) (hr : x.type ≠ .rightPar) (hpar : 0 ≤ p) :
    Passes buffers k p l (k + 1) p (if p = 0 then l + 1 else l) := by
  obtain ⟨u, hu, htype, -⟩ := h
  refine ⟨1, fun n => ?_⟩
  simp only [vectorLen, hu, htype, hend, Option.bind_some, false_or, Int.not_lt.mpr hpar, if_false]

/-- The count ends after the parenthesis that closes the vector. -/
theorem run (h : Passes buffers k 0 0 k' (-1) l) (ht : ∃ t, buffers.tokens k' = some t) :
    Ends (fun n => (vectorLen buffers n k 0 0 : Parse ℕ)) e l e := by
  obtain ⟨m, hm⟩ := h
  obtain ⟨t, ht⟩ := ht
  refine ⟨m + 1, fun n hn => ?_⟩
  obtain ⟨j, rfl⟩ : ∃ j, n = j + 1 + m := ⟨n - (m + 1), by omega⟩
  simp [hm, vectorLen, ht, StateT.run]
  rfl

end Passes

/-! ## Lists and vectors -/

theorem appendList_proper
    (h : Ends (fun n => createListLoop buffers n false (.proper (cs ++ [d]))) k r e) :
    Ends (fun n => appendList buffers n false (.proper cs) d) k r e := by
  refine .succ (.ite_pos ?_ (h.congr fun n => ?_))
  · by_cases hcs : cs = [] <;> simp [Cells.proper, hcs]
  · simp [Cells.proper, Cells.link]

/-- A datum after the dot. -/
theorem appendList_link {q : Cells} (htakes : q.Takes (d :: ds))
    (h : Ends (fun n => createListLoop buffers n true (q.link d)) k r e) :
    Ends (fun n => appendList buffers n true q d) k r e :=
  .succ (.ite_neg (fun hnil => htakes.1 hnil.2) (.ite_pos (.inr htakes.2.1) h))

/-- The end of a list. -/
theorem createListLoop_close {issexp : Bool} {q : Cells} (h : buffers.Slot k x)
    (hx : x.type = .rightPar) :
    Ends (fun n => createListLoop buffers n issexp q) k (.ofList q.cars q.cdr) (k + 1) :=
  .succ (.run_bind (h.run_peekType hx) (.run_bind run_advance .pure))

/-- The dot of a list. -/
theorem createListLoop_point {q : Cells} (h : buffers.Slot k x) (hx : x.type = .point)
    (hr : Ends (fun n => createListLoop buffers n true q) (k + 1) r e) :
    Ends (fun n => createListLoop buffers n false q) k r e :=
  .succ (.run_bind (h.run_peekType hx) (.run_bind run_advance (.ite_neg (by simp) hr)))

/-- The datum after the dot. -/
theorem appendList_dotted (hcs : cs ≠ []) (h : buffers.Slot k x) (hx : x.type = .rightPar) :
    Ends (fun n => appendList buffers n true (.proper cs) d) k (.ofList cs d) (k + 1) := by
  refine .succ (.ite_neg (by simp [Cells.proper, hcs]) (.ite_pos (by simp [Cells.proper, hcs]) ?_))
  have hlink : Datum.ofList ((Cells.proper cs).link d).cars ((Cells.proper cs).link d).cdr =
      .ofList cs d := by
    cases d <;> simp [Cells.proper, Cells.link, Datum.ofList]
  exact hlink ▸ createListLoop_close h hx

theorem appendVector_fill {len : ℕ} {fill : List Datum} (hlen : fill.length < len)
    (h : Ends (fun n => createVectorLoop buffers n len (fill ++ [d])) k r e) :
    Ends (fun n => appendVector buffers n len fill d) k r e :=
  .succ (.ite_pos hlen h)

/-- The end of a vector. -/
theorem createVectorLoop_close {len : ℕ} {fill : List Datum} (h : buffers.Slot k x)
    (hx : x.type = .rightPar) :
    Ends (fun n => createVectorLoop buffers n len fill) k (.vector len (.ofList fill .null))
      (k + 1) :=
  .succ (.run_bind (h.run_peekType hx) (.run_bind run_advance .pure))

/-- A mark in a vector is an element of it. -/
theorem createVectorLoop_mark {len : ℕ} {fill : List Datum} (h : buffers.Slot k x)
    (hx : x.type = .quote ∨ x.type = .point)
    (hr : Ends (fun n => appendVector buffers n len fill .void) (k + 1) r e) :
    Ends (fun n => createVectorLoop buffers n len fill) k r e := by
  have hobj := h.obj_eq_void (by rcases hx with hx | hx <;> simp [hx, TokenType.IsAtom])
  rcases hx with hx | hx <;>
    exact .succ (.run_bind (h.run_peekType hx)
      (.run_bind (h.run_peekObj.trans (by rw [hobj])) (.run_bind run_advance hr)))

/-! ## The parser reads what the grammar derives

By induction on the derivation. -/

/-- The parser reads `ds` from `k` to `k'`: in the loop for lists before a dot and after one, or in
the one for vectors.  The first loop of `_create_vector` counts them when they are not in
parentheses. -/
def Part.Reads (buffers : Buffers) (k : ℕ) (ts : List Lexeme) (ds : List Datum) (k' : ℕ) :
    Part → Prop
  | .datum => ∃ x d, x ∈ ts.head? ∧ ds = [d] ∧ ReadsAt buffers k x.type d k' ∧
      (∀ par len, 1 ≤ par → Passes buffers k par len k' par len) ∧
      (x.type ≠ .quote → ∀ len, Passes buffers k 0 len k' 0 (len + 1))
  | .elems =>
      (∀ {c r e}, Ends (fun n => createListLoop buffers n false (.proper (c ++ ds))) k' r e →
        Ends (fun n => createListLoop buffers n false (.proper c)) k r e) ∧
      (∀ {q r e}, q.Takes ds →
        Ends (fun n => createListLoop buffers n true (ds.foldl Cells.link q)) k' r e →
          Ends (fun n => createListLoop buffers n true q) k r e) ∧
      ∀ par len, 1 ≤ par → Passes buffers k par len k' par len
  | .slots =>
      (∀ {len f r e}, f.length + ds.length ≤ len →
        Ends (fun n => createVectorLoop buffers n len (f ++ ds)) k' r e →
        Ends (fun n => createVectorLoop buffers n len f) k r e) ∧
      (∀ par len, 1 ≤ par → Passes buffers k par len k' par len) ∧
      ∀ len, Passes buffers k 0 len k' 0 (len + ds.length)

/-- A datum in parentheses is passed over as a whole. -/
theorem Passes.parens {l r : Lexeme} (hl : buffers.Slot k l)
    (hltype : l.type = .leftPar ∨ l.type = .leftSharpar)
    (h : ∀ par len, 1 ≤ par → Passes buffers (k + 1) par len k' par len) (hr : buffers.Slot k' r)
    (hrtype : r.type = .rightPar) :
    (∀ par len, 1 ≤ par → Passes buffers k par len (k' + 1) par len) ∧
      ∀ len, Passes buffers k 0 len (k' + 1) 0 (len + 1) := by
  constructor
  · intro par len hpar
    have hin := (enter (l := len) hl hltype (by omega)).trans (h (par + 1) len (by omega))
    have hout := leave (p := par + 1) (l := len) hr hrtype (by omega)
    rw [Int.add_sub_cancel, if_neg (by omega)] at hout
    exact hin.trans hout
  · intro len
    have hin := (enter (l := len) hl hltype (by omega)).trans (h (0 + 1) len (by omega))
    have hout := leave (p := 0 + 1) (l := len) hr hrtype (by omega)
    rw [Int.add_sub_cancel, if_pos rfl] at hout
    exact hin.trans hout

/-- A token outside of parentheses is an element of its own. -/
theorem Passes.single (h : buffers.Slot k x)
    (hx : x.type.IsAtom ∨ x.type.IsStray ∨ x.type = .quote ∨ x.type = .point) :
    (∀ par len, 1 ≤ par → Passes buffers k par len (k + 1) par len) ∧
      ∀ len, Passes buffers k 0 len (k + 1) 0 (len + 1) := by
  have hne : x.type ≠ .tagEnd ∧ x.type ≠ .leftPar ∧ x.type ≠ .leftSharpar ∧
      x.type ≠ .rightPar := by
    simp only [TokenType.IsAtom, TokenType.IsStray] at hx
    refine ⟨?_, ?_, ?_, ?_⟩ <;> rintro heq <;> simp [heq] at hx
  obtain ⟨hend, hl, hv, hr⟩ := hne
  constructor
  · intro par len hpar
    simpa [show par ≠ 0 by omega] using step (l := len) h hend hl hv hr (show 0 ≤ par by omega)
  · intro len
    simpa using step (l := len) h hend hl hv hr (Int.le_refl 0)

theorem createVector_ends {len : ℕ} (hlen : Passes buffers k 0 0 k' (-1) len)
    (ht : ∃ t, buffers.tokens k' = some t)
    (h : Ends (fun n => createVectorLoop buffers n len []) k r e) :
    Ends (createVector buffers) k r e :=
  .succ (.run_bind (a := k) (t := k) rfl ((hlen.run ht).bind h))

theorem Derives.reads {part : Part} {more : Prop} (h : Derives True more part ts ds us) {k : ℕ}
    (hk : buffers.Holds k ts) : ∃ k', buffers.Holds k' us ∧ part.Reads buffers k ts ds k' := by
  induction h generalizing k with
  | @atom t us ht =>
    have hpass := Passes.single hk.1 (Or.inl ht)
    exact ⟨k + 1, hk.2, t, _, rfl, rfl, .of_obj hk.1 (Or.inl ht), hpass.1, fun _ => hpass.2⟩
  | @stray t us _ ht =>
    have hpass := Passes.single hk.1 (Or.inr (Or.inl ht))
    have hvoid : t.obj = .void := hk.1.obj_eq_void fun hatom => by
      simp only [TokenType.IsAtom, TokenType.IsStray] at hatom ht
      rcases hatom with h | h | h | h | h | h <;> simp [h] at ht
    exact ⟨k + 1, hk.2, t, _, rfl, rfl, hvoid ▸ .of_obj hk.1 (Or.inr ht), hpass.1,
      fun _ => hpass.2⟩
  | @quote t d ts us ht h ih =>
    obtain ⟨k', hk', x, d', -, heq, hread, hpass, -⟩ := ih hk.2
    obtain rfl := (List.cons.inj heq).1
    exact ⟨k', hk', t, _, rfl, rfl, .of_quote hk.1 ht hread.quoted,
      fun par len hpar => ((Passes.single hk.1 (Or.inr (Or.inr (Or.inl ht)))).1 par len hpar).trans
        (hpass par len hpar), fun hne => absurd ht hne⟩
  | @quoteNone t r us _ ht hr =>
    have hpass := Passes.single hk.1 (Or.inr (Or.inr (Or.inl ht)))
    exact ⟨k + 1, hk.2, t, _, rfl, rfl,
      .of_quote hk.1 ht (.succ (.run_bind (hk.2.1.run_peekType hr) .pure)), hpass.1,
      fun hne => absurd ht hne⟩
  | @quotePoint t p us _ ht hp =>
    have hobj := hk.2.1.obj_eq_void (by simp [hp, TokenType.IsAtom])
    have hpass := Passes.single hk.1 (Or.inr (Or.inr (Or.inl ht)))
    have hpass' := Passes.single hk.2.1 (Or.inr (Or.inr (Or.inr hp)))
    exact ⟨k + 1 + 1, hk.2.2, t, _, rfl, rfl,
      .of_quote hk.1 ht (.succ (.run_bind (hk.2.1.run_peekType hp)
        (.run_bind (hk.2.1.run_peekObj.trans (by rw [hobj])) (.run_bind run_advance .pure)))),
      fun par len hpar => (hpass.1 par len hpar).trans (hpass'.1 par len hpar),
      fun hne => absurd ht hne⟩
  | @list l r ds ts us hl h hr ih =>
    obtain ⟨k', hk', hloop, -, hpass⟩ := ih hk.2
    have hparens := Passes.parens hk.1 (Or.inl hl) hpass hk'.1 hr
    have hlist : Ends (createList buffers) (k + 1) (.ofList ds .null) (k' + 1) :=
      .succ (hloop (c := []) (createListLoop_close hk'.1 hr))
    exact ⟨k' + 1, hk'.2, l, _, rfl, rfl, .of_list hk.1 hl hlist, hparens.1, fun _ => hparens.2⟩
  | @dotted l p r d ds ts us vs hl h hds hp hd hr ih ihd =>
    obtain ⟨k', hk', hloop, -, hpass⟩ := ih hk.2
    obtain ⟨k'', hk'', x, d', -, heq, hread, hpass', -⟩ := ihd hk'.2
    obtain rfl := (List.cons.inj heq).1
    have hparens := Passes.parens hk.1 (Or.inl hl) (fun par len hpar =>
      (hpass par len hpar).trans (((Passes.single hk'.1 (Or.inr (Or.inr (Or.inr hp)))).1 par len
        hpar).trans (hpass' par len hpar))) hk''.1 hr
    have hlist : Ends (createList buffers) (k + 1) (.ofList ds d) (k'' + 1) :=
      .succ (hloop (c := []) (createListLoop_point hk'.1 hp
        (hread.list (appendList_dotted hds hk''.1 hr))))
    exact ⟨k'' + 1, hk''.2, l, _, rfl, rfl, .of_list hk.1 hl hlist, hparens.1, fun _ => hparens.2⟩
  | @dottedMore l p r ds es ts us vs _ hl h hp hes htakes hr ih ihes =>
    obtain ⟨k', hk', hloop, -, hpass⟩ := ih hk.2
    obtain ⟨k'', hk'', -, hmore, hpass'⟩ := ihes hk'.2
    have hparens := Passes.parens hk.1 (Or.inl hl) (fun par len hpar =>
      (hpass par len hpar).trans (((Passes.single hk'.1 (Or.inr (Or.inr (Or.inr hp)))).1 par len
        hpar).trans (hpass' par len hpar))) hk''.1 hr
    have hlist : Ends (createList buffers) (k + 1) ((Cells.proper ds).closed es) (k'' + 1) :=
      .succ (hloop (c := []) (createListLoop_point hk'.1 hp
        (hmore htakes (createListLoop_close hk''.1 hr))))
    exact ⟨k'' + 1, hk''.2, l, _, rfl, rfl, .of_list hk.1 hl hlist, hparens.1, fun _ => hparens.2⟩
  | @vector l r ds ts us hl h hr ih =>
    obtain ⟨k', hk', hloop, hpass, hcount⟩ := ih hk.2
    have hparens := Passes.parens hk.1 (Or.inr hl) hpass hk'.1 hr
    have hlen : Passes buffers (k + 1) 0 0 (k' + 1) (-1) ds.length := by
      simpa using (hcount 0).trans (Passes.leave hk'.1 hr (Int.le_refl 0))
    have hvector : Ends (createVector buffers) (k + 1) (.vector ds.length (.ofList ds .null))
        (k' + 1) :=
      createVector_ends hlen hk'.2.isSome
        (hloop (f := []) (by simp) (createVectorLoop_close hk'.1 hr))
    exact ⟨k' + 1, hk'.2, l, _, rfl, rfl, .of_vector hk.1 hl hvector, hparens.1,
      fun _ => hparens.2⟩
  | elemsNil => exact ⟨k, hk, by simp, fun _ hr => hr, fun _ _ _ => .refl⟩
  | @elemsCons d ds ts us vs hd hds ih ihs =>
    obtain ⟨k', hk', x, d', -, heq, hread, hpass, -⟩ := ih hk
    obtain rfl := (List.cons.inj heq).1
    obtain ⟨k'', hk'', hloop, hmore, hpass'⟩ := ihs hk'
    refine ⟨k'', hk'', fun {cs r e} hr => hread.list (appendList_proper (hloop ?_)),
      fun {q r e} htakes hr => hread.list (appendList_link htakes (hmore htakes.2.2 hr)),
      fun par len hpar => (hpass par len hpar).trans (hpass' par len hpar)⟩
    simpa using hr
  | slotsNil => exact ⟨k, hk, by simp, fun _ _ _ => .refl, fun _ => .refl⟩
  | @slotsCons d ds ts us vs hq hd hds ih ihs =>
    obtain ⟨k', hk', x, d', hx, heq, hread, hpass, hcount⟩ := ih hk
    obtain rfl := (List.cons.inj heq).1
    obtain ⟨k'', hk'', hloop, hpass', hcount'⟩ := ihs hk'
    have hne := hq trivial x hx
    refine ⟨k'', hk'', fun {len fill r e} hlen hr => hread.slot hne (appendVector_fill ?_
      (hloop ?_ ?_)), fun par len hpar => (hpass par len hpar).trans (hpass' par len hpar),
      fun len => ?_⟩
    · simp at hlen; omega
    · simp at hlen ⊢; omega
    · simpa using hr
    · simpa [Nat.add_assoc, Nat.add_comm 1] using (hcount hne len).trans (hcount' (len + 1))
  | @slotsMark t ds us vs _ ht hds ih =>
    obtain ⟨k', hk', hloop, hpass, hcount⟩ := ih hk.2
    have hsingle := Passes.single hk.1 (Or.inr (Or.inr ht))
    refine ⟨k', hk', fun {len fill r e} hlen hr => createVectorLoop_mark hk.1 ht (appendVector_fill
      ?_ (hloop ?_ ?_)), fun par len hpar => (hsingle.1 par len hpar).trans (hpass par len hpar),
      fun len => ?_⟩
    · simp at hlen; omega
    · simp at hlen ⊢; omega
    · simpa using hr
    · simpa [Nat.add_assoc, Nat.add_comm 1] using (hsingle.2 len).trans (hcount (len + 1))

/-- **What the grammar derives is read**, whatever comes after it. -/
theorem Derives.readTokens {more : Prop} (h : Derives True more .datum ts [d] us)
    (hk : buffers.Holds 0 ts) : ∃ e, Ends (readTokens buffers) 0 d e := by
  obtain ⟨k', -, x, d', -, heq, hread, -⟩ := h.reads hk
  obtain rfl := (List.cons.inj heq).1
  exact hread.top

end SchemeOs
