import SchemeOs.Reader.Grammar
import SchemeOs.Reader.History

/-!
# Reader/WellFormed — what the parser makes of a well-formed sequence, and of others

A sequence that starts with a datum is read as that datum, and one with a stray token in it as a
datum with `void` in it.  What is left open, or has a dot where there should be none, is refused as
a whole only at the outermost level.
-/

namespace SchemeOs

variable {buffers : Buffers} {k e : ℕ} {d r : Datum} {ts us : List Lexeme} {ds : List Datum}
  {part : Part} {q : Cells} {x : Lexeme}

/-- The tokens start with a well-formed datum. -/
def WellFormed (ts : List Lexeme) : Prop := ∃ d us, Derives False False .datum ts [d] us

/-- The first datum has a quote mark that is an element of a vector, inside the forms of which
`stack` has the vectors as `true`. -/
def MarkIn : List Bool → List Lexeme → Prop
  | _, [] => False
  | stack, t :: ts => match t.type with
    | .leftPar => MarkIn (false :: stack) ts
    | .leftSharpar => MarkIn (true :: stack) ts
    | .rightPar => stack.tail ≠ [] ∧ MarkIn stack.tail ts
    | .quote => stack.head? = some true ∨ MarkIn stack ts
    | _ => stack ≠ [] ∧ MarkIn stack ts

theorem not_markIn_rightPar {stack : List Bool} {b : Bool} (hx : x.type = .rightPar)
    (h : ¬MarkIn (b :: stack) (x :: us)) (hstack : stack ≠ []) : ¬MarkIn stack us := by
  simp only [MarkIn, hx, List.tail_cons] at h
  exact fun hin => h ⟨hstack, hin⟩

/-- Without such marks the parser takes the tokens as the grammar does. -/
theorem Derives.lax {stack : List Bool} (h : Derives False False part ts ds us)
    (hpart : part ≠ .datum → stack ≠ []) (hslots : part = .slots → stack.head? = some true)
    (hmark : ¬MarkIn stack ts) :
    Derives True False part ts ds us ∧ (stack ≠ [] → ¬MarkIn stack us) := by
  induction h generalizing stack with
  | @atom t us ht =>
    refine ⟨.atom ht, fun hstack hin => ?_⟩
    obtain ht | ht | ht | ht | ht | ht := ht <;> simp only [MarkIn, ht] at hmark <;>
      exact hmark ⟨hstack, hin⟩
  | stray hlax | quoteNone hlax | quotePoint hlax | slotsMark hlax => exact hlax.elim
  | dottedMore hmore => exact hmore.elim
  | quote ht _ ih =>
    simp only [MarkIn, ht, not_or] at hmark
    obtain ⟨hd, hrest⟩ := ih (nomatch · rfl) nofun hmark.2
    exact ⟨.quote ht hd, hrest⟩
  | list hl _ hr ih =>
    simp only [MarkIn, hl] at hmark
    obtain ⟨hds, hrest⟩ := ih (fun _ => List.cons_ne_nil _ _) nofun hmark
    exact ⟨.list hl hds hr, not_markIn_rightPar hr (hrest (List.cons_ne_nil _ _))⟩
  | dotted hl _ hne hp _ hr ih ihd =>
    simp only [MarkIn, hl] at hmark
    obtain ⟨hds, hpoint⟩ := ih (fun _ => List.cons_ne_nil _ _) nofun hmark
    have hpoint := hpoint (List.cons_ne_nil _ _)
    simp only [MarkIn, hp, not_and] at hpoint
    obtain ⟨hd, hrest⟩ := ihd (fun _ => List.cons_ne_nil _ _) nofun
      (hpoint (List.cons_ne_nil _ _))
    exact ⟨.dotted hl hds hne hp hd hr, not_markIn_rightPar hr (hrest (List.cons_ne_nil _ _))⟩
  | vector hl _ hr ih =>
    simp only [MarkIn, hl] at hmark
    obtain ⟨hds, hrest⟩ := ih (fun _ => List.cons_ne_nil _ _) (fun _ => rfl) hmark
    exact ⟨.vector hl hds hr, not_markIn_rightPar hr (hrest (List.cons_ne_nil _ _))⟩
  | elemsNil => exact ⟨.elemsNil, fun _ => hmark⟩
  | slotsNil => exact ⟨.slotsNil, fun _ => hmark⟩
  | elemsCons _ _ ih ihs =>
    have hstack := hpart nofun
    obtain ⟨hd, hrest⟩ := ih (fun _ => hstack) nofun hmark
    obtain ⟨hds, hrest⟩ := ihs hpart hslots (hrest hstack)
    exact ⟨.elemsCons hd hds, hrest⟩
  | @slotsCons d ds ts us vs _ _ _ ih ihs =>
    have hstack := hpart nofun
    obtain ⟨hd, hrest⟩ := ih (fun _ => hstack) nofun hmark
    obtain ⟨hds, hrest⟩ := ihs hpart hslots (hrest hstack)
    refine ⟨.slotsCons (fun _ t ht hquote => ?_) hd hds, hrest⟩
    cases ts with
    | nil => cases ht
    | cons t' ts =>
      cases ht
      simp only [MarkIn, hquote, not_or] at hmark
      exact hmark.1 (hslots rfl)

/-- No datum begins at the first token. -/
def NotBegun (ts : List Lexeme) : Prop := ∀ x ∈ ts.head?, x.type = .rightPar ∨ x.type = .point

/-- The tokens start with a list that has a second dot, or a datum that cannot be linked after its
dot. -/
def IllDotted (ts : List Lexeme) : Prop :=
  ∃ l p ds es ts' us vs, ts = l :: ts' ∧ l.type = .leftPar ∧ p.type = .point ∧
    Derives True False .elems ts' ds (p :: us) ∧ Derives True False .elems us es vs ∧
      (Cells.proper ds).Takes es ∧ ((∃ x ∈ vs.head?, x.type = .point) ∨
        ∃ d ws, Derives True False .datum vs [d] ws ∧
          ¬(es.foldl Cells.link (.proper ds)).Takes [d])

theorem NotBegun.read (h : NotBegun ts) (hk : buffers.Holds k ts) :
    Ends (readTokens buffers) k .void k := by
  cases ts with
  | nil =>
    obtain ⟨t, ht, htype⟩ := hk
    have hpeek : (peekType buffers).run k = some (.tagEnd, k) := by
      simp [peekType, StateT.run, ht, htype]
    refine .run_bind hpeek (.of_run ?_)
    simp [StateT.run, ht, tokenToObj, htype]
  | cons x ts =>
    rcases h x rfl with hx | hx
    · exact .run_bind (hk.1.run_peekType hx) .pure
    · have hobj := hk.1.obj_eq_void (by simp [hx, TokenType.IsAtom])
      exact .run_bind (hk.1.run_peekType hx) (.of_run (hobj ▸ hk.1.run_peekObj))

theorem appendList_refuse (h : ¬q.Takes [d]) :
    Ends (fun n => appendList buffers n true q d) k .void k := by
  by_cases hcars : q.cars = []
  · exact .succ (.ite_pos ⟨rfl, hcars⟩ .pure)
  · refine .succ (.ite_neg (fun hand => hcars hand.2) (.ite_neg ?_ .pure))
    rintro (hnil | hpair)
    · exact hcars hnil
    · exact h ⟨hcars, hpair, trivial⟩

theorem IllDotted.read (h : IllDotted ts) (hk : buffers.Holds k ts) :
    ∃ e, Ends (readTokens buffers) k .void e := by
  obtain ⟨l, p, ds, es, ts, us, vs, rfl, hl, hp, hds, hes, htakes, hor⟩ := h
  obtain ⟨k₁, hk₁, hloop, -, -⟩ := hds.reads hk.2
  obtain ⟨k₂, hk₂, -, hmore, -⟩ := hes.reads hk₁.2
  have hlist : ∀ {e}, Ends (fun n => createListLoop buffers n true
      (es.foldl Cells.link (.proper ds))) k₂ .void e → Ends (readTokens buffers) k .void e :=
    fun hend => .run_bind (hk.1.run_peekType hl) (.run_bind run_advance
      (.succ (hloop (c := []) (createListLoop_point hk₁.1 hp (hmore htakes hend)))))
  rcases hor with ⟨x, hx, hpoint⟩ | ⟨d, ws, hd, hnot⟩
  · cases vs with
    | nil => cases hx
    | cons y vs =>
      cases hx
      exact ⟨k₂ + 1, hlist (.succ (.run_bind (hk₂.1.run_peekType hpoint)
        (.run_bind run_advance (.ite_pos rfl .pure))))⟩
  · obtain ⟨k₃, -, y, d', -, heq, hread, -⟩ := hd.reads hk₂
    obtain rfl := (List.cons.inj heq).1
    exact ⟨k₃, hlist (hread.list (appendList_refuse hnot))⟩

/-! ## Reading -/

/-- The tokens start with a datum, stray tokens and unused marks allowed for, and no vector of a
well-formed one has a quoted datum for an element; or nothing begins, or the dot of the outermost
list is ill-formed. -/
def Closed (ts : List Lexeme) : Prop :=
  (∃ d us, Derives True False .datum ts [d] us) ∧ (WellFormed ts → ¬MarkIn [] ts) ∨
    ¬WellFormed ts ∧ (NotBegun ts ∨ IllDotted ts)

end SchemeOs
