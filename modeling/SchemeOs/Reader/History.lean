import Mathlib.Logic.Function.Basic
import Mathlib.Tactic.SplitIfs
import SchemeOs.Machinery.Refines
import SchemeOs.Reader.Parser

/-!
# Reader/History — what earlier reads have left behind

The arrays of the lexer are not cleared between two reads.  A read has the same result where more
is set in them than it needs, and with more fuel, so that it has one result at most from the same
arrays.
-/

namespace SchemeOs

variable {n n' : ℕ} {l l' : Lexer} {b b' : Buffers} {c : Char}

/-- What is set in `b` is the same in `b'`. -/
structure Buffers.Le (b b' : Buffers) : Prop where
  scan : ∀ k c, b.scan k = some c → b'.scan k = some c
  tokens : ∀ k t, b.tokens k = some t → ∃ t', b'.tokens k = some t' ∧ t'.type = t.type ∧
    ∀ j, t.token = some j → t'.token = some j

theorem Buffers.Le.refl (b : Buffers) : b.Le b :=
  ⟨fun _ _ h => h, fun _ t h => ⟨t, h, rfl, fun _ h => h⟩⟩

/-- The lexer has the same variables, and arrays in which more is set. -/
structure Lexer.Le (l l' : Lexer) : Prop where
  buffers : l.toBuffers.Le l'.toBuffers
  port : l'.port = l.port
  i : l'.i = l.i
  s : l'.s = l.s
  stack : l'.stack = l.stack
  stat : l'.stat = l.stat
  isfloat : l'.isfloat = l.isfloat
  finished : l'.finished = l.finished

/-! ## The lexer

Arrays in which more is set take the lexer through the same steps, and have more set afterwards. -/

/-- `x` needs no more of the arrays than `y`. -/
abbrev LexRefines {α : Type} (x y : LexM α) : Prop := Refines Lexer.Le x y

namespace LexM

theorem refines_getChar : LexRefines getChar getChar := by
  intro l l' hle a l₁ h
  simp only [StateT.run, getChar, Option.some.injEq, Prod.mk.injEq] at h ⊢
  obtain ⟨rfl, rfl⟩ := h
  refine ⟨_, ⟨by rw [hle.port], rfl⟩, hle.buffers, ?_, hle.i, hle.s, hle.stack, hle.stat,
    hle.isfloat, hle.finished⟩
  rw [hle.port]

/-- The macro `isprint`, which may read twice. -/
theorem refines_getPrint : LexRefines getPrint getPrint := by
  unfold getPrint
  refine .bind refines_getChar fun c => .ite Iff.rfl ?_ (.of_pure _)
  exact .bind refines_getChar fun c => .of_pure _

theorem refines_store (k : ℕ) (c : Char) : LexRefines (store k c) (store k c) := by
  intro l l' hle a l₁ h
  simp only [StateT.run, store] at h ⊢
  split_ifs at h ⊢ with hk
  cases h
  refine ⟨_, rfl, ⟨?_, hle.buffers.tokens⟩, hle.port, hle.i, hle.s, hle.stack, hle.stat,
    hle.isfloat, hle.finished⟩
  intro j d hj
  dsimp only at hj ⊢
  by_cases hjk : j = k
  · rw [hjk, Function.update_self] at hj ⊢
    exact hj
  · rw [Function.update_of_ne hjk] at hj ⊢
    exact hle.buffers.scan j d hj

/-- Fails where the buffer is full, in both. -/
theorem refines_putChar (c : Char) : LexRefines (putChar c) (putChar c) := by
  unfold putChar
  refine .get_bind fun l l' hle => .bind ?_ fun _ => .of_modify fun l l' hle => ?_
  · rw [hle.s]
    exact refines_store _ c
  · exact ⟨hle.buffers, hle.port, hle.i, by rw [hle.s], hle.stack, hle.stat, hle.isfloat,
      hle.finished⟩

/-- Reads a slot, which must be set. -/
theorem refines_tokenType : LexRefines tokenType tokenType := by
  intro l l' hle a l₁ h
  simp only [StateT.run, tokenType, Option.map_eq_some_iff] at h ⊢
  obtain ⟨t, ht, heq⟩ := h
  cases heq
  obtain ⟨t', ht', htype, -⟩ := hle.buffers.tokens _ t ht
  exact ⟨l', ⟨t', by rw [hle.i, ht'], by rw [htype]⟩, hle⟩

/-- The arrays with one token more. -/
theorem le_update {k : ℕ} {t t' : Token} (hle : b.Le b') (htype : t'.type = t.type)
    (htoken : ∀ j, t.token = some j → t'.token = some j) :
    Buffers.Le { b with tokens := Function.update b.tokens k (some t) }
      { b' with tokens := Function.update b'.tokens k (some t') } where
  scan := hle.scan
  tokens j u hu := by
    dsimp only at hu ⊢
    by_cases hjk : j = k
    · rw [hjk, Function.update_self] at hu ⊢
      cases hu
      exact ⟨t', rfl, htype, htoken⟩
    · rw [Function.update_of_ne hjk] at hu ⊢
      exact hle.tokens j u hu

theorem refines_setType (t : TokenType) : LexRefines (setType t) (setType t) := by
  intro l l' hle a l₁ h
  simp only [StateT.run, setType, hle.i] at h ⊢
  split_ifs at h ⊢ with hi
  cases h
  refine ⟨_, rfl, le_update hle.buffers rfl ?_, hle.port, rfl, hle.s, hle.stack, hle.stat,
    hle.isfloat, hle.finished⟩
  intro j hj
  obtain ⟨u, hu, huj⟩ := Option.bind_eq_some_iff.mp hj
  obtain ⟨u', hu', -, htoken⟩ := hle.buffers.tokens _ u hu
  exact Option.bind_eq_some_iff.mpr ⟨u', hu', htoken j huj⟩

/-- Keeps the type of the slot, which must be set. -/
theorem refines_setToken : LexRefines setToken setToken := by
  intro l l' hle a l₁ h
  simp only [StateT.run, setToken, hle.i, hle.s] at h ⊢
  obtain ⟨t, ht, heq⟩ := Option.map_eq_some_iff.mp h
  cases heq
  obtain ⟨t', ht', htype, -⟩ := hle.buffers.tokens _ t ht
  exact ⟨_, Option.map_eq_some_iff.mpr ⟨t', ht', rfl⟩,
    le_update hle.buffers htype fun _ hj => hj, hle.port, rfl, rfl, hle.stack, hle.stat,
    hle.isfloat, hle.finished⟩

theorem refines_nextToken : LexRefines nextToken nextToken :=
  .of_modify fun l l' hle => ⟨hle.buffers, hle.port, by rw [hle.i], hle.s, hle.stack, hle.stat,
    hle.isfloat, hle.finished⟩

theorem refines_pushType (t : TokenType) : LexRefines (pushType t) (pushType t) :=
  .bind (refines_setType t) fun _ => refines_nextToken

/-- The variables that are not about the arrays. -/
theorem refines_vars {f : ℤ → ℤ} {g : Bool → Bool} {h : Bool → Bool} {u : Bool → ℤ → Bool} :
    LexRefines (modify fun l => { l with
        stack := f l.stack, stat := g l.stat, isfloat := h l.isfloat,
        finished := u l.finished l.stack })
      (modify fun l => { l with
        stack := f l.stack, stat := g l.stat, isfloat := h l.isfloat,
        finished := u l.finished l.stack }) :=
  .of_modify fun l l' hle => ⟨hle.buffers, hle.port, hle.i, hle.s, by rw [hle.stack],
    by rw [hle.stat], by rw [hle.isfloat], by rw [hle.finished, hle.stack]⟩

theorem refines_beginWord (t : TokenType) : LexRefines (beginWord t) (beginWord t) :=
  .bind (refines_setType t) fun _ => .bind refines_setToken fun _ =>
    refines_vars (f := id) (g := fun _ => true) (h := id) (u := fun b _ => b)

theorem refines_endWord : LexRefines endWord endWord :=
  .bind (refines_vars (f := id) (g := fun _ => false) (h := id) (u := fun b _ => b)) fun _ =>
    .bind (refines_putChar _) fun _ => refines_nextToken

end LexM

open LexM

/-- The loop over a string. -/
theorem refines_lexString (hn : n ≤ n') : LexRefines (lexString n) (lexString n') := by
  induction n generalizing n' with
  | zero => exact .of_failure
  | succ n ih =>
    obtain ⟨n', rfl⟩ : ∃ k, n' = k + 1 := ⟨n' - 1, by omega⟩
    have hloop : LexRefines (lexString n) (lexString n') := ih (by omega)
    rw [lexString, lexString]
    refine .bind refines_getPrint fun ⟨c, print⟩ => .ite Iff.rfl ?_ (.of_pure _)
    refine .bind (refines_putChar c) fun _ => .ite Iff.rfl ?_ (.ite Iff.rfl ?_ hloop)
    · refine .bind refines_getChar fun c => .ite Iff.rfl ?_ ?_
      · refine .get_bind fun l l' hle => ?_
        rw [hle.s]
        exact .bind (refines_store _ c) fun _ => hloop
      · exact .bind (refines_putChar c) fun _ => hloop
    · refine .get_bind fun l l' hle => ?_
      rw [hle.s]
      exact refines_store _ _

theorem refines_lexChar (hn : n ≤ n') : LexRefines (lexChar n) (lexChar n') := by
  induction n generalizing n' with
  | zero => exact .of_failure
  | succ n ih =>
    obtain ⟨n', rfl⟩ : ∃ k, n' = k + 1 := ⟨n' - 1, by omega⟩
    rw [lexChar, lexChar]
    refine .bind refines_getPrint fun ⟨c, print⟩ => .ite Iff.rfl ?_ (.of_pure _)
    refine .ite Iff.rfl (.of_pure _) (.bind (refines_putChar c) fun _ => ih (by omega))

theorem refines_lexSharp (hn : n ≤ n') : LexRefines (lexSharp n) (lexSharp n') := by
  unfold lexSharp
  refine .bind refines_getChar fun c => ?_
  split
  · exact .bind (refines_pushType _) fun _ =>
      refines_vars (f := fun k => k + 1) (g := id) (h := id) (u := fun b _ => b)
  · exact refines_pushType _
  · exact refines_pushType _
  · exact .bind (refines_setType _) fun _ => .bind refines_setToken fun _ =>
      .bind refines_nextToken fun _ => .bind (refines_lexChar hn) fun _ => refines_putChar _
  all_goals first | exact refines_pushType _ | exact .of_pure _

/-- A character of a word may set the type once more. -/
theorem refines_lexWord (c : Char) : LexRefines (lexWord c) (lexWord c) := by
  have hput := refines_putChar c
  unfold lexWord
  dsimp only
  refine .ite Iff.rfl ?_ (.ite Iff.rfl ?_ hput)
  · refine .get_bind fun l l' hle => .ite (by rw [hle.stat]) ?_ ?_
    · exact .bind (refines_beginWord _) fun _ => hput
    · refine .bind refines_tokenType fun t => .ite Iff.rfl (.bind (refines_setType _) fun _ => ?_)
        hput
      exact .bind (refines_vars (f := id) (g := id) (h := fun _ => true) (u := fun b _ => b))
        fun _ => hput
  · refine .get_bind fun l l' hle => .ite (by rw [hle.stat]) ?_ ?_
    · exact .bind (refines_beginWord _) fun _ => hput
    · exact .bind refines_tokenType fun t =>
        .ite Iff.rfl (.bind (refines_setType _) fun _ => hput) hput

theorem refines_lexPoint : LexRefines lexPoint lexPoint := by
  have hput := refines_putChar '.'
  unfold lexPoint
  dsimp only
  refine .get_bind fun l l' hle => .ite (by rw [hle.stat]) ?_ ?_
  · exact .bind (refines_beginWord _) fun _ => hput
  · refine .get_bind fun l l' hle => .ite (by rw [hle.isfloat]) ?_ ?_
    · exact .bind (refines_setType _) fun _ => hput
    · refine .bind refines_tokenType fun t => .ite Iff.rfl ?_ hput
      exact .bind (refines_vars (f := id) (g := id) (h := fun _ => true) (u := fun b _ => b))
        fun _ => hput

/-- The switch over the first character of a token. -/
theorem refines_lexSwitch (hn : n ≤ n') (c : Char) :
    LexRefines (lexSwitch n c) (lexSwitch n' c) := by
  unfold lexSwitch
  dsimp only
  split
  · exact .bind (refines_pushType _) fun _ =>
      refines_vars (f := fun k => k + 1) (g := fun _ => false) (h := id) (u := fun b _ => b)
  · have hclose : LexRefines
        (do
          pushType .rightPar
          modify fun l => { l with
            stack := l.stack - 1, finished := l.finished || l.stack - 1 = 0 })
        (do
          pushType .rightPar
          modify fun l => { l with
            stack := l.stack - 1, finished := l.finished || l.stack - 1 = 0 }) :=
      .bind (refines_pushType _) fun _ =>
        refines_vars (f := fun k => k - 1) (g := id) (h := id) (u := fun b k => b || k - 1 = 0)
    refine .get_bind fun l l' hle => .ite (by rw [hle.stat]) ?_ hclose
    exact .bind refines_endWord fun _ => hclose
  · have hstring : LexRefines (do setType .string; setToken; nextToken; lexString n)
        (do setType .string; setToken; nextToken; lexString n') :=
      .bind (refines_setType _) fun _ => .bind refines_setToken fun _ =>
        .bind refines_nextToken fun _ => refines_lexString hn
    refine .get_bind fun l l' hle => .ite (by rw [hle.stat]) ?_ hstring
    exact .bind refines_endWord fun _ => hstring
  · exact .get_bind fun l l' hle => .ite (by rw [hle.stat]) (refines_putChar _)
      (refines_lexSharp hn)
  · exact refines_pushType _
  · exact refines_pushType _
  · exact .get_bind fun l l' hle => .ite (by rw [hle.stat]) (refines_beginWord _) (.of_pure _)
  · exact refines_lexPoint
  · exact refines_lexWord _

/-- The loop and what it does behind a comma, by induction on the fuel. -/
theorem refines_loops : ∀ {n n' : ℕ}, n ≤ n' →
    LexRefines (lexLoop n) (lexLoop n') ∧ ∀ c, LexRefines (nextLoop n c) (nextLoop n' c)
  | 0, _, _ => by
    rw [lexLoop]
    refine ⟨.of_failure, fun c => ?_⟩
    rw [nextLoop]
    exact .of_failure
  | n + 1, 0, hn => absurd hn (by omega)
  | n + 1, n' + 1, hn => by
    obtain ⟨hlex, hnext⟩ := refines_loops (Nat.le_of_succ_le_succ hn)
    have hfinish : LexRefines
        (do if (← get).finished then return () else lexLoop n)
        (do if (← get).finished then return () else lexLoop n') :=
      .get_bind fun l l' hle => .ite (by rw [hle.finished]) (.of_pure _) hlex
    constructor
    · rw [lexLoop, lexLoop]
      exact .bind refines_getChar fun c => .ite Iff.rfl (.of_pure _) (hnext c)
    · intro c
      rw [nextLoop, nextLoop]
      refine .ite Iff.rfl ?_ (.ite Iff.rfl ?_ ?_)
      · refine .get_bind fun l l' hle => .ite (by rw [hle.stat]) ?_ hlex
        refine .bind (refines_vars (f := id) (g := id) (h := fun _ => false) (u := fun b _ => b))
          fun _ => .bind refines_endWord fun _ => ?_
        exact .get_bind fun l l' hle => .ite (by rw [hle.stack]) (.of_pure _) hlex
      · refine .bind refines_getChar fun c => .ite Iff.rfl ?_ ?_
        · exact .bind (refines_pushType _) fun _ => hfinish
        · exact .bind (refines_pushType _) fun _ => hnext c
      · exact .bind (refines_lexSwitch (by omega) c) fun _ => hfinish

/-- The whole lexer. -/
theorem refines_lexTokens (hn : n ≤ n') : LexRefines (lexTokens n) (lexTokens n') := by
  unfold lexTokens
  dsimp only
  refine .bind (refines_loops hn).1 fun _ => .get_bind fun l l' hle =>
    .ite (by rw [hle.stat]) ?_ (refines_setType _)
  refine .get_bind fun l l' hle => ?_
  rw [hle.s]
  exact .bind (refines_store _ _) fun _ => .bind refines_nextToken fun _ => refines_setType _

/-! ## The parser -/

/-- `x` needs no more of the arrays than `y`. -/
abbrev ParseRefines {α : Type} (x y : Parse α) : Prop := Refines Eq x y

section Parser

variable {k : ℕ} {t t' : Token} {d : Datum}

/-- A text that is set is the same in arrays with more in them. -/
theorem textFrom_le (hle : b.Le b') {text : List Char} (h : textFrom b n k = some text) :
    textFrom b' n k = some text := by
  induction n generalizing k text with
  | zero => exact h
  | succ n ih =>
    rw [textFrom] at h ⊢
    obtain ⟨c, hc, htext⟩ := Option.bind_eq_some_iff.mp h
    rw [hle.scan k c hc, Option.bind_some]
    split_ifs at htext ⊢ with hnul
    · exact htext
    · obtain ⟨rest, hrest, rfl⟩ := Option.map_eq_some_iff.mp htext
      rw [ih hrest]
      rfl

/-- So is the datum of a token. -/
theorem tokenToObj_le (hle : b.Le b') (htype : t'.type = t.type)
    (htoken : ∀ j, t.token = some j → t'.token = some j) (h : tokenToObj b t = some d) :
    tokenToObj b' t' = some d := by
  have htext : ∀ text, tokenText b t = some text → tokenText b' t' = some text := by
    intro text h
    obtain ⟨j, hj, hfrom⟩ := Option.bind_eq_some_iff.mp h
    exact Option.bind_eq_some_iff.mpr ⟨j, htoken j hj, textFrom_le hle hfrom⟩
  have hmap : ∀ f : List Char → Datum, (tokenText b t).map f = some d →
      (tokenText b' t').map f = some d := by
    intro f h
    obtain ⟨text, ht, rfl⟩ := Option.map_eq_some_iff.mp h
    rw [htext text ht]
    rfl
  unfold tokenToObj at h ⊢
  rw [htype]
  split at h
  · exact hmap _ h
  · exact h
  · exact h
  · exact hmap _ h
  · obtain ⟨c, hc, rfl⟩ := Option.map_eq_some_iff.mp h
    obtain ⟨j, hj, hscan⟩ := Option.bind_eq_some_iff.mp hc
    have hc' : t'.token.bind b'.scan = some c :=
      Option.bind_eq_some_iff.mpr ⟨j, htoken j hj, hle.scan j c hscan⟩
    simp only [hc', Option.map_some]
  · exact hmap _ h
  · simpa using h

theorem refines_peekType (hle : b.Le b') : ParseRefines (peekType b) (peekType b') := by
  rintro k _ rfl a s' h
  obtain ⟨t, ht, heq⟩ := Option.map_eq_some_iff.mp h
  cases heq
  obtain ⟨t', ht', htype, -⟩ := hle.tokens k t ht
  exact ⟨k, Option.map_eq_some_iff.mpr ⟨t', ht', by rw [htype]⟩, rfl⟩

theorem refines_peekObj (hle : b.Le b') : ParseRefines (peekObj b) (peekObj b') := by
  rintro k _ rfl a s' h
  obtain ⟨t, ht, hd⟩ := Option.bind_eq_some_iff.mp h
  obtain ⟨d, hobj, heq⟩ := Option.map_eq_some_iff.mp hd
  cases heq
  obtain ⟨t', ht', htype, htoken⟩ := hle.tokens k t ht
  refine ⟨k, Option.bind_eq_some_iff.mpr ⟨t', ht', Option.map_eq_some_iff.mpr ⟨_, ?_, rfl⟩⟩, rfl⟩
  exact tokenToObj_le hle htype htoken hobj

theorem refines_advance : ParseRefines advance advance :=
  .of_modify fun _ _ h => by rw [h]

/-- And the number of elements that `_create_vector` counts. -/
theorem vectorLen_le (hle : b.Le b') (hn : n ≤ n') {par : ℤ} {len r : ℕ}
    (h : vectorLen b n k par len = some r) : vectorLen b' n' k par len = some r := by
  induction n generalizing n' k par len with
  | zero => cases h
  | succ n ih =>
    obtain ⟨n', rfl⟩ : ∃ j, n' = j + 1 := ⟨n' - 1, by omega⟩
    rw [vectorLen] at h ⊢
    obtain ⟨t, ht, h⟩ := Option.bind_eq_some_iff.mp h
    obtain ⟨t', ht', htype, -⟩ := hle.tokens k t ht
    rw [ht', Option.bind_some, htype]
    by_cases hend : t.type = .tagEnd ∨ par < 0
    · rw [if_pos hend] at h ⊢
      exact h
    · rw [if_neg hend] at h ⊢
      split at h <;> exact ih (by omega) h

/-- What the functions of the parser need with the fuel `n`. -/
structure ParserRefines (b b' : Buffers) (n n' : ℕ) : Prop where
  createListLoop (issexp : Bool) (q : Cells) :
    ParseRefines (createListLoop b n issexp q) (createListLoop b' n' issexp q)
  appendList (issexp : Bool) (q : Cells) (car : Datum) :
    ParseRefines (appendList b n issexp q car) (appendList b' n' issexp q car)
  createList : ParseRefines (createList b n) (createList b' n')
  createVectorLoop (len : ℕ) (fill : List Datum) :
    ParseRefines (createVectorLoop b n len fill) (createVectorLoop b' n' len fill)
  appendVector (len : ℕ) (fill : List Datum) (d : Datum) :
    ParseRefines (appendVector b n len fill d) (appendVector b' n' len fill d)
  createVector : ParseRefines (createVector b n) (createVector b' n')
  createQuoted : ParseRefines (createQuoted b n) (createQuoted b' n')

/-- **The parser does the same** on arrays with more in them, by induction on the fuel. -/
theorem parserRefines (hle : b.Le b') (hn : n ≤ n') : ParserRefines b b' n n' := by
  induction n generalizing n' with
  | zero => constructor <;> intros <;> exact .of_failure
  | succ n ih =>
    obtain ⟨n', rfl⟩ : ∃ j, n' = j + 1 := ⟨n' - 1, by omega⟩
    have ih' : ParserRefines b b' n n' := ih (by omega)
    have htype := refines_peekType hle
    have hobj := refines_peekObj hle
    constructor
    case createListLoop =>
      intro issexp q
      rw [SchemeOs.createListLoop, SchemeOs.createListLoop]
      refine .bind htype fun t => ?_
      split
      · exact .bind refines_advance fun _ => .of_pure _
      · exact .bind refines_advance fun _ => .of_pure _
      · exact .bind refines_advance fun _ => .bind ih'.createList fun _ => ih'.appendList _ _ _
      · exact .bind refines_advance fun _ => .bind ih'.createVector fun _ => ih'.appendList _ _ _
      · exact .bind refines_advance fun _ => .bind ih'.createQuoted fun _ => ih'.appendList _ _ _
      · exact .bind refines_advance fun _ =>
          .ite Iff.rfl (.of_pure _) (ih'.createListLoop _ _)
      · exact .bind hobj fun _ => .bind refines_advance fun _ => ih'.appendList _ _ _
    case appendList =>
      intro issexp q car
      rw [SchemeOs.appendList, SchemeOs.appendList]
      exact .ite Iff.rfl (.of_pure _) (.ite Iff.rfl (ih'.createListLoop _ _) (.of_pure _))
    case createList =>
      rw [SchemeOs.createList, SchemeOs.createList]
      exact ih'.createListLoop _ _
    case createVectorLoop =>
      intro len fill
      rw [SchemeOs.createVectorLoop, SchemeOs.createVectorLoop]
      refine .bind htype fun t => ?_
      split
      · exact .bind refines_advance fun _ => .of_pure _
      · exact .bind refines_advance fun _ => .of_pure _
      · exact .bind refines_advance fun _ => .bind ih'.createList fun _ => ih'.appendVector _ _ _
      · exact .bind refines_advance fun _ => .bind ih'.createVector fun _ => ih'.appendVector _ _ _
      · exact .bind hobj fun _ => .bind refines_advance fun _ => ih'.appendVector _ _ _
    case appendVector =>
      intro len fill d
      rw [SchemeOs.appendVector, SchemeOs.appendVector]
      exact .ite Iff.rfl (ih'.createVectorLoop _ _) .of_failure
    case createVector =>
      rw [SchemeOs.createVector, SchemeOs.createVector]
      refine .get_bind fun k k' hk => ?_
      subst hk
      exact .bind (.of_lift fun a => vectorLen_le hle (by omega)) fun _ =>
        ih'.createVectorLoop _ _
    case createQuoted =>
      rw [SchemeOs.createQuoted, SchemeOs.createQuoted]
      refine .bind htype fun t => ?_
      split
      · exact .bind refines_advance fun _ => .bind ih'.createList fun _ => .of_pure _
      · exact .of_pure _
      · exact .bind refines_advance fun _ => .bind ih'.createVector fun _ => .of_pure _
      · exact .bind refines_advance fun _ => .bind ih'.createQuoted fun _ => .of_pure _
      · exact .bind hobj fun _ => .bind refines_advance fun _ => .of_pure _

theorem refines_readTokens (hle : b.Le b') (hn : n ≤ n') :
    ParseRefines (readTokens b n) (readTokens b' n') := by
  have hparser := parserRefines hle hn
  unfold readTokens
  refine .bind (refines_peekType hle) fun t => ?_
  split
  · exact .bind refines_advance fun _ => hparser.createList
  · exact .of_pure _
  · exact .bind refines_advance fun _ => hparser.createVector
  · exact .bind refines_advance fun _ => hparser.createQuoted
  · exact refines_peekObj hle

end Parser

/-! ## Reads -/

/-- **A read needs no more than what is set**: where more is, and with more fuel, the result is the
same. -/
theorem schemeRead_le (hle : b.Le b') (hn : n ≤ n') {port : List Char}
    {r : Datum × Buffers × List Char} (h : schemeRead n b port = some r) :
    ∃ b₁, schemeRead n' b' port = some (r.1, b₁, r.2.2) := by
  obtain ⟨⟨b₁, port₁⟩, htokens, hmap⟩ := Option.bind_eq_some_iff.mp h
  obtain ⟨⟨d, k⟩, hread, rfl⟩ := Option.map_eq_some_iff.mp hmap
  obtain ⟨⟨u, l⟩, hlex, heq⟩ := Option.map_eq_some_iff.mp htokens
  cases heq
  obtain ⟨l', hlex', hl⟩ := refines_lexTokens hn ⟨b, port, 0, 0, 0, false, false, false⟩
    ⟨b', port, 0, 0, 0, false, false, false⟩ ⟨hle, rfl, rfl, rfl, rfl, rfl, rfl, rfl⟩ u l hlex
  obtain ⟨k', hread', -⟩ := refines_readTokens hl.buffers hn 0 0 rfl d k hread
  refine ⟨l'.toBuffers, Option.bind_eq_some_iff.mpr ⟨(l'.toBuffers, l'.port), ?_, ?_⟩⟩
  · exact Option.map_eq_some_iff.mpr ⟨(u, l'), hlex', rfl⟩
  · refine Option.map_eq_some_iff.mpr ⟨(d, k'), hread', ?_⟩
    rw [hl.port]

/-- The read of the text from the arrays `b` gives the datum. -/
def Gives (b : Buffers) (port : List Char) (d : Datum) : Prop :=
  ∃ n, (schemeRead n b port).map (fun r => r.1) = some d

section Reads

variable {port : List Char} {d d' : Datum}

/-- A read gives one datum at most. -/
theorem Gives.unique (h : Gives b port d) (h' : Gives b port d') : d = d' := by
  obtain ⟨n, h⟩ := h
  obtain ⟨n', h'⟩ := h'
  obtain ⟨r, hr, rfl⟩ := Option.map_eq_some_iff.mp h
  obtain ⟨r', hr', rfl⟩ := Option.map_eq_some_iff.mp h'
  obtain ⟨b₁, h₁⟩ := schemeRead_le (.refl b) (le_max_left n n') hr
  obtain ⟨b₂, h₂⟩ := schemeRead_le (.refl b) (le_max_right n n') hr'
  exact congrArg (fun r => r.1) (Option.some.inj (h₁.symm.trans h₂))

end Reads

end SchemeOs
