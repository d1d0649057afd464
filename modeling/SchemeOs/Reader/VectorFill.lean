import SchemeOs.Reader.Grammar
import SchemeOs.Reader.History

/-!
# Reader/VectorFill — the two passes over a vector

`_create_vector` first counts the elements by the parentheses alone and then reads them one by one.
The passes agree where every form inside the vector is closed and none of them makes `_create_list`
return before its end.
-/

namespace SchemeOs

variable {buffers : Buffers} {k e : ℕ} {r : Datum} {ts us : List Lexeme} {ds : List Datum}

/-- From the slot `k` on `_create_vector` stores as many elements as it counted. -/
def FillsVector (buffers : Buffers) (k : ℕ) : Prop :=
  ∃ len fill e, fill.length = len ∧
    Ends (fun n => (vectorLen buffers n k 0 0 : Parse ℕ)) k len k ∧
      Ends (createVector buffers) k (.vector len (.ofList fill .null)) e

/-- The tokens after `#(` are the elements of a vector, and nothing or a parenthesis after them. -/
def VectorTokens (ts : List Lexeme) : Prop :=
  ∃ ds us, Derives True True .slots ts ds us ∧ ∀ x ∈ us.head?, x.type = .rightPar

/-- The marker ends a vector, too. -/
theorem createVectorLoop_end {len : ℕ} {fill : List Datum} (h : buffers.Holds k []) :
    Ends (fun n => createVectorLoop buffers n len fill) k (.vector len (.ofList fill .null))
      (k + 1) := by
  obtain ⟨t, ht, htype⟩ := h
  have hpeek : (peekType buffers).run k = some (.tagEnd, k) := by
    simp [peekType, StateT.run, ht, htype]
  exact .succ (.run_bind hpeek (.run_bind run_advance .pure))

/-- The count stops at the marker. -/
theorem Passes.run_end {k' l : ℕ} (h : Passes buffers k 0 0 k' 0 l) (hend : buffers.Holds k' []) :
    Ends (fun n => (vectorLen buffers n k 0 0 : Parse ℕ)) e l e := by
  obtain ⟨m, hm⟩ := h
  obtain ⟨t, ht, htype⟩ := hend
  refine ⟨m + 1, fun n hn => ?_⟩
  obtain ⟨j, rfl⟩ : ∃ j, n = j + 1 + m := ⟨n - (m + 1), by omega⟩
  simp [hm, vectorLen, ht, htype, StateT.run]
  rfl

/-- **Both passes over a vector see the same elements** where the forms inside of it are ones that
the parser reads to their end. -/
theorem fillsVector_of_vectorTokens (hk : buffers.Holds k ts) (h : VectorTokens ts) :
    FillsVector buffers k := by
  obtain ⟨ds, us, hderives, hus⟩ := h
  obtain ⟨k', hk', hloop, -, hcount⟩ := hderives.reads hk
  have hpass := hcount 0
  rw [Nat.zero_add] at hpass
  cases us with
  | nil =>
    have hlen := fun e => hpass.run_end (e := e) hk'
    refine ⟨ds.length, ds, k' + 1, rfl, hlen k, .succ (.run_bind (a := k) (t := k) rfl
      ((hlen k).bind (hloop (f := []) ?_ (createVectorLoop_end hk'))))⟩
    exact (Nat.zero_add _).le
  | cons x us =>
    have hx := hus x rfl
    have hlen : Passes buffers k 0 0 (k' + 1) (-1) ds.length :=
      hpass.trans (Passes.leave hk'.1 hx (Int.le_refl 0))
    refine ⟨ds.length, ds, k' + 1, rfl, hlen.run hk'.2.isSome, createVector_ends hlen
      hk'.2.isSome (hloop (f := []) ?_ (createVectorLoop_close hk'.1 hx))⟩
    exact (Nat.zero_add _).le

/-- The arrays with the tokens of `#((#t . #f) '#t #(#t))`. -/
def vectorBuffers : Buffers where
  scan _ := some '\x00'
  tokens k :=
    [⟨.leftSharpar, none⟩, ⟨.leftPar, none⟩, ⟨.true, none⟩, ⟨.point, some 0⟩, ⟨.false, none⟩,
      ⟨.rightPar, none⟩, ⟨.quote, none⟩, ⟨.true, none⟩, ⟨.leftSharpar, none⟩, ⟨.true, none⟩,
      ⟨.rightPar, none⟩, ⟨.rightPar, none⟩, ⟨.tagEnd, none⟩][k]?

/-- The tokens after the first `#(`. -/
def vectorTokens : List Lexeme :=
  [⟨.leftPar, .void⟩, ⟨.true, .bool true⟩, ⟨.point, .void⟩, ⟨.false, .bool false⟩,
    ⟨.rightPar, .void⟩, ⟨.quote, .void⟩, ⟨.true, .bool true⟩, ⟨.leftSharpar, .void⟩,
    ⟨.true, .bool true⟩, ⟨.rightPar, .void⟩, ⟨.rightPar, .void⟩]

theorem vectorTokens_vectorTokens : VectorTokens vectorTokens := by
  have htrue : TokenType.IsAtom .true := .inr (.inl rfl)
  have hfalse : TokenType.IsAtom .false := .inr (.inr (.inl rfl))
  have hpair : Derives True True .datum vectorTokens [.ofList [.bool true] (.bool false)]
      (vectorTokens.drop 5) :=
    .dotted rfl (.elemsCons (.atom htrue) .elemsNil) (List.cons_ne_nil _ _) rfl (.atom hfalse) rfl
  have hvector : Derives True True .datum (vectorTokens.drop 7)
      [.vector 1 (.ofList [.bool true] .null)] (vectorTokens.drop 10) := by
    refine .vector rfl (.slotsCons ?_ (.atom htrue) .slotsNil) rfl
    rintro - t ht
    cases ht
    simp
  have hmark : Derives True True .slots (vectorTokens.drop 5)
      [.void, .bool true, .vector 1 (.ofList [.bool true] .null)] (vectorTokens.drop 10) := by
    refine .slotsMark trivial (.inl rfl) (.slotsCons ?_ (.atom htrue)
      (.slotsCons ?_ hvector .slotsNil))
    all_goals
      rintro - t ht
      cases ht
      simp
  refine ⟨_, vectorTokens.drop 10, .slotsCons ?_ hpair hmark, fun x hx => ?_⟩
  · rintro - t ht
    cases ht
    simp
  · cases hx
    rfl

theorem fillsVector_of_vectorTokens_nested : FillsVector vectorBuffers 1 := by
  have hk : vectorBuffers.Holds 1 vectorTokens := by
    simp [Buffers.Holds, Buffers.Slot, vectorTokens, vectorBuffers, tokenToObj]
  exact fillsVector_of_vectorTokens hk vectorTokens_vectorTokens

/-- The arrays with the tokens of `#((. #t) #t)`. -/
def dottedBuffers : Buffers where
  scan k := some (if k = 0 then '.' else '\x00')
  tokens k :=
    [⟨.leftSharpar, none⟩, ⟨.leftPar, none⟩, ⟨.point, some 0⟩, ⟨.true, none⟩, ⟨.rightPar, none⟩,
      ⟨.true, none⟩, ⟨.rightPar, none⟩, ⟨.tagEnd, none⟩][k]?

/-- In `#((. #t) #t)` the inner list is given up before its end, and there is one element of two. -/
theorem not_fillsVector : ¬∀ (buffers : Buffers) (k : ℕ) (ts : List Lexeme),
    buffers.Holds k ts → FillsVector buffers k := by
  intro h
  have hk : dottedBuffers.Holds 1 [⟨.leftPar, .void⟩, ⟨.point, .void⟩, ⟨.true, .bool true⟩,
      ⟨.rightPar, .void⟩, ⟨.true, .bool true⟩, ⟨.rightPar, .void⟩] :=
    ⟨⟨_, rfl, rfl, rfl⟩, ⟨_, rfl, rfl, rfl⟩, ⟨_, rfl, rfl, rfl⟩, ⟨_, rfl, rfl, rfl⟩,
      ⟨_, rfl, rfl, rfl⟩, ⟨_, rfl, rfl, rfl⟩, _, rfl, rfl⟩
  have hvector : (createVector dottedBuffers 20).run 1 =
      some (.vector 2 (.pair .void .null), 5) := by rfl
  obtain ⟨len, fill, e, hlen, -, hends⟩ := h dottedBuffers 1 _ hk
  have hends' : Ends (createVector dottedBuffers) 1 (.vector 2 (.pair .void .null)) 5 := by
    refine ⟨20, fun n hn => ?_⟩
    obtain ⟨k, hrun, rfl⟩ :=
      (parserRefines (Buffers.Le.refl _) hn).createVector 1 1 rfl _ 5 hvector
    exact hrun
  obtain ⟨heq, -⟩ := hends.unique hends'
  obtain ⟨rfl, hfill⟩ := Datum.vector.inj heq
  cases fill with
  | nil => cases hlen
  | cons d fill =>
    cases fill with
    | nil => cases hlen
    | cons d' fill =>
      obtain ⟨-, hcdr⟩ := Datum.pair.inj hfill
      cases hcdr

end SchemeOs
