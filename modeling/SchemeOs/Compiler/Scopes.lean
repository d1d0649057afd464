import SchemeOs.Compiler.Links
import SchemeOs.Machinery.Occurrences

/-!
# Compiler/Scopes — where the labels of a procedure are

A label is used by `Goto` and `PushCont`.  The code of a procedure is its body with both blocks of
each test in it, but without the bodies of the closures that it makes: these are procedures of their
own.
-/

namespace SchemeOs.Compiler

variable {prog c c' body : List Code} {later later' : List ℕ} {l n m : ℕ} {istail : Bool}

/-! ## Procedures

The instructions of a body belong to the body, and not to the code around it. -/

mutual

/-- The labels used and placed in the code of a procedure, as they follow each other. -/
def occurrences : List Code → List (Occurrence ℕ)
  | [] => []
  | c :: cs => occurrencesIn c ++ occurrences cs

/-- `occurrences`, for one instruction. -/
def occurrencesIn : Code → List (Occurrence ℕ)
  | .label l => [.place l]
  | .goto l => [.use l]
  | .pushCont l => [.use l]
  | .ifTrue con alt => occurrences con ++ occurrences alt
  | .ifFalse con alt => occurrences con ++ occurrences alt
  | _ => []

end

mutual

/-- The bodies of the closures in the code. -/
def bodies : List Code → List (List Code)
  | [] => []
  | c :: cs => bodiesIn c ++ bodies cs

/-- `bodies`, for one instruction. -/
def bodiesIn : Code → List (List Code)
  | .makeClosure _ _ body => body :: bodies body
  | .ifTrue con alt => bodies con ++ bodies alt
  | .ifFalse con alt => bodies con ++ bodies alt
  | _ => []

end

@[simp] theorem occurrences_append (c c' : List Code) :
    occurrences (c ++ c') = occurrences c ++ occurrences c' := by
  induction c with
  | nil => rfl
  | cons i c ih => rw [List.cons_append, occurrences, occurrences, ih, List.append_assoc]

@[simp] theorem bodies_append (c c' : List Code) : bodies (c ++ c') = bodies c ++ bodies c' := by
  induction c with
  | nil => rfl
  | cons i c ih => rw [List.cons_append, bodies, bodies, ih, List.append_assoc]

mutual

/-- The labels of a procedure, and those of the closures in it, are labels of its code. -/
theorem places_sublist : (c : List Code) → (places (occurrences c)).Sublist (labels c)
  | [] => .slnil
  | i :: c => by
    rw [occurrences, labels, places_append]
    exact (placesIn_sublist i).append (places_sublist c)

theorem placesIn_sublist : (i : Code) → (places (occurrencesIn i)).Sublist (labelsIn i)
  | .label l => .refl [l]
  | .ifTrue con alt => by
    rw [occurrencesIn, labelsIn, places_append]
    exact (places_sublist con).append (places_sublist alt)
  | .ifFalse con alt => by
    rw [occurrencesIn, labelsIn, places_append]
    exact (places_sublist con).append (places_sublist alt)
  | .makeClosure _ _ _ => List.nil_sublist _
  | .fetchConst _ => .slnil
  | .lookupVar _ => .slnil
  | .newBind _ => .slnil
  | .reBind _ => .slnil
  | .leaveProc => .slnil
  | .apply => .slnil
  | .callBuiltin _ _ => .slnil
  | .pushCont _ => .slnil
  | .push => .slnil
  | .moveSp _ => .slnil
  | .accStack _ => .slnil
  | .goto _ => .slnil
  | .blankLn => .slnil
  | .nop => .slnil

end

mutual

theorem labels_sublist_of_mem_bodies : (c : List Code) → body ∈ bodies c →
    (labels body).Sublist (labels c)
  | [], h => absurd h List.not_mem_nil
  | i :: c, h => by
    rw [bodies] at h
    rw [labels]
    rcases List.mem_append.mp h with h | h
    · exact (labels_sublist_of_mem_bodiesIn i h).trans (List.sublist_append_left _ _)
    · exact (labels_sublist_of_mem_bodies c h).trans (List.sublist_append_right _ _)

theorem labels_sublist_of_mem_bodiesIn : (i : Code) → body ∈ bodiesIn i →
    (labels body).Sublist (labelsIn i)
  | .makeClosure _ _ b, h => by
    rw [bodiesIn] at h
    rw [labelsIn]
    rcases List.mem_cons.mp h with rfl | h
    · exact .refl _
    · exact labels_sublist_of_mem_bodies b h
  | .ifTrue con alt, h => by
    rw [bodiesIn] at h
    rw [labelsIn]
    rcases List.mem_append.mp h with h | h
    · exact (labels_sublist_of_mem_bodies con h).trans (List.sublist_append_left _ _)
    · exact (labels_sublist_of_mem_bodies alt h).trans (List.sublist_append_right _ _)
  | .ifFalse con alt, h => by
    rw [bodiesIn] at h
    rw [labelsIn]
    rcases List.mem_append.mp h with h | h
    · exact (labels_sublist_of_mem_bodies con h).trans (List.sublist_append_left _ _)
    · exact (labels_sublist_of_mem_bodies alt h).trans (List.sublist_append_right _ _)
  | .label _, h => absurd h List.not_mem_nil
  | .fetchConst _, h => absurd h List.not_mem_nil
  | .lookupVar _, h => absurd h List.not_mem_nil
  | .newBind _, h => absurd h List.not_mem_nil
  | .reBind _, h => absurd h List.not_mem_nil
  | .leaveProc, h => absurd h List.not_mem_nil
  | .apply, h => absurd h List.not_mem_nil
  | .callBuiltin _ _, h => absurd h List.not_mem_nil
  | .pushCont _, h => absurd h List.not_mem_nil
  | .push, h => absurd h List.not_mem_nil
  | .moveSp _, h => absurd h List.not_mem_nil
  | .accStack _, h => absurd h List.not_mem_nil
  | .goto _, h => absurd h List.not_mem_nil
  | .blankLn, h => absurd h List.not_mem_nil
  | .nop, h => absurd h List.not_mem_nil

end

/-! ## Labelled code -/

/-- The labels that the code uses are placed behind their uses, or are among `later`; those that the
closures in it use are placed there. -/
structure Labelled (later : List ℕ) (c : List Code) : Prop where
  resolved : Resolved later (occurrences c)
  bodies : ∀ body ∈ bodies c, Resolved [] (occurrences body)

namespace Labelled

theorem mono (h : Labelled later c) (hsub : later ⊆ later') : Labelled later' c :=
  ⟨h.resolved.mono hsub, h.bodies⟩

theorem of_nil (h : Labelled [] c) : Labelled later c := h.mono (List.nil_subset _)

/-- Code that uses no labels and makes no closures. -/
theorem plain (ho : occurrences c = []) (hb : Compiler.bodies c = []) : Labelled later c :=
  ⟨by rw [ho]; trivial, by rw [hb]; exact fun body h => absurd h List.not_mem_nil⟩

end Labelled

theorem labelled_append : Labelled later (c ++ c') ↔
    Labelled (places (occurrences c') ++ later) c ∧ Labelled later c' := by
  constructor
  · intro h
    have hres := h.resolved
    have hbod := h.bodies
    rw [occurrences_append, resolved_append] at hres
    rw [bodies_append] at hbod
    exact ⟨⟨hres.1, fun b hb => hbod b (List.mem_append_left _ hb)⟩,
      ⟨hres.2, fun b hb => hbod b (List.mem_append_right _ hb)⟩⟩
  · rintro ⟨h, h'⟩
    refine ⟨?_, fun b hb => ?_⟩
    · rw [occurrences_append, resolved_append]
      exact ⟨h.resolved, h'.resolved⟩
    · rw [bodies_append] at hb
      exact (List.mem_append.mp hb).elim (h.bodies b) (h'.bodies b)

/-- Code that is followed by code which uses other labels. -/
theorem Labelled.append (h : Labelled later c) (h' : Labelled later c') :
    Labelled later (c ++ c') :=
  labelled_append.mpr ⟨h.mono (List.subset_append_right _ _), h'⟩

/-- The code before a label may use it. -/
theorem Labelled.label (h : Labelled [l] c) : Labelled [] (c ++ [.label l]) :=
  labelled_append.mpr ⟨h, ⟨trivial, fun _ hb => absurd hb List.not_mem_nil⟩⟩

theorem labelled_flatten {cs : List (List Code)} (h : ∀ c ∈ cs, Labelled later c) :
    Labelled later cs.flatten := by
  induction cs with
  | nil => exact .plain rfl rfl
  | cons c cs ih =>
    exact (h c List.mem_cons_self).append (ih fun c' hc' => h c' (List.mem_cons_of_mem _ hc'))

theorem labelled_withTail {tail : List Code} {cs : List (List Code)} (ht : Labelled later tail)
    (h : ∀ c ∈ cs, Labelled later c) : Labelled later (withTail tail cs) := by
  induction cs with
  | nil => exact .plain rfl rfl
  | cons c cs ih =>
    rw [withTail_cons]
    exact ((h c List.mem_cons_self).append ht).append
      (ih fun c' hc' => h c' (List.mem_cons_of_mem _ hc'))

theorem labelled_removeLast {t : Code} {cs : List (List Code)} (ht : Labelled later [t])
    (hplaces : places (occurrences [t]) = []) (hne : cs ≠ []) (h : ∀ c ∈ cs, Labelled later c) :
    Labelled later (removeLast (withTail [t] cs)) := by
  have htail := labelled_withTail ht h
  rw [removeLast_withTail t hne, labelled_append, hplaces] at htail
  exact htail.1

theorem labelled_header (args : List Sym) : Labelled later (header args) := by
  rw [header]
  induction args.zipIdx with
  | nil => exact .plain rfl rfl
  | cons vi rest ih =>
    rw [List.flatMap_cons]
    exact Labelled.append (.plain rfl rfl) ih

/-- The code of a procedure makes a closure. -/
theorem labelled_makeClosure {name : Sym} {formals : Formals} (h : Labelled [] body) :
    Labelled later [.makeClosure name formals body] := by
  refine ⟨trivial, fun b hb => ?_⟩
  rw [Compiler.bodies, bodiesIn, Compiler.bodies, List.append_nil] at hb
  rcases List.mem_cons.mp hb with rfl | hb
  · exact h.resolved
  · exact h.bodies b hb

theorem labelled_ifTrue {con alt : List Code} (hcon : Labelled later con)
    (halt : Labelled later alt) : Labelled later [.ifTrue con alt] := by
  have happ := hcon.append halt
  refine ⟨?_, fun b hb => happ.bodies b ?_⟩
  · rw [occurrences, occurrencesIn, occurrences, List.append_nil, ← occurrences_append]
    exact happ.resolved
  · rwa [Compiler.bodies, bodiesIn, Compiler.bodies, List.append_nil, ← bodies_append] at hb

/-- A test of `and` and `or` uses the label at the end. -/
theorem labelled_goto (l : ℕ) : Labelled [l] [.goto l] :=
  ⟨⟨List.mem_singleton_self l, trivial⟩, fun _ hb => absurd hb List.not_mem_nil⟩

/-- A call places its label behind the code that uses it. -/
theorem labelled_pushCont (h : Labelled [] c) (l : ℕ) :
    Labelled [] ([.pushCont l] ++ c ++ [.label l]) := by
  refine Labelled.label (Labelled.append ?_ h.of_nil)
  exact ⟨⟨List.mem_singleton_self l, trivial⟩, fun _ hb => absurd hb List.not_mem_nil⟩

/-! ## Compiled code -/

mutual

/-- **Compiled code is labelled.** -/
theorem labelled_expr : (e : Expr) → {istail : Bool} → {n m : ℕ} → {c : List Code} →
    compileExprM istail e n = some (c, m) → Labelled [] c
  | .variable _, _, _, _, _, h => by
    obtain ⟨rfl, rfl⟩ := emits_variable.mp h
    exact .plain rfl rfl
  | .quote _, _, _, _, _, h => by
    obtain ⟨rfl, rfl⟩ := emits_quote.mp h
    exact .plain rfl rfl
  | .selfEval _, _, _, _, _, h => by
    obtain ⟨rfl, rfl⟩ := emits_selfEval.mp h
    exact .plain rfl rfl
  | .procCall func args, istail, n, _, _, h => by
    have htail : Labelled [] [.push, .blankLn] := .plain rfl rfl
    cases hs : builtinSym func with
    | some s =>
      obtain ⟨cs, hcs, rfl⟩ := (emits_builtin hs).mp h
      exact (labelled_withTail htail (labelled_seq args hcs)).append (.plain rfl rfl)
    | none =>
      obtain ⟨cs, k, op, hcs, hop, rfl⟩ := (emits_procCall hs).mp h
      have hargs :=
        (labelled_withTail htail (labelled_seq args hcs)).append (labelled_expr func hop)
      have happ := hargs.append (.plain rfl rfl : Labelled [] [.apply])
      cases istail with
      | true =>
        simp only [if_true, List.nil_append, List.append_nil]
        exact happ.append (.plain rfl rfl)
      | false =>
        have hcall := (labelled_pushCont happ n).append (.plain rfl rfl : Labelled [] [.blankLn])
        simpa only [Bool.false_eq_true, if_false, List.append_assoc] using hcall
  | .sequence es, _, _, _, _, h => by
    obtain ⟨cs, hcs, rfl⟩ := emits_sequence.mp h
    exact labelled_flatten (labelled_seq es hcs)
  | .lambda _ es, _, _, _, _, h => by
    obtain ⟨cs, hcs, rfl⟩ := emits_lambda.mp h
    exact labelled_makeClosure ((labelled_flatten (labelled_seq es hcs)).append (.plain rfl rfl))
  | .defvar _ e, _, _, _, _, h => by
    obtain ⟨c, hc, rfl⟩ := emits_defvar.mp h
    exact (labelled_expr e hc).append (.plain rfl rfl)
  | .defun _ params es, _, _, _, _, h => by
    obtain ⟨cs, hcs, rfl⟩ := emits_defun.mp h
    have hbody := (labelled_header params).append (labelled_flatten (labelled_seq es hcs))
    exact (labelled_makeClosure (hbody.append (.plain rfl rfl))).append (.plain rfl rfl)
  | .defun2 _ _ _ es, _, _, _, _, h => by
    obtain ⟨cs, hcs, rfl⟩ := emits_defun2.mp h
    have hbody := labelled_flatten (labelled_seq es hcs)
    exact (labelled_makeClosure (hbody.append (.plain rfl rfl))).append (.plain rfl rfl)
  | .assign _ e, _, _, _, _, h => by
    obtain ⟨c, hc, rfl⟩ := emits_assign.mp h
    exact (labelled_expr e hc).append (.plain rfl rfl)
  | .branch test thenExp elseExp, _, _, _, _, h => by
    obtain ⟨_, _, _, _, _, hTest, hThen, hElse, rfl⟩ := emits_branch.mp h
    exact (labelled_expr test hTest).append
      (labelled_ifTrue (labelled_expr thenExp hThen) (labelled_expr elseExp hElse))
  | .cond clauses, _, n, _, _, h => by
    obtain ⟨c', hc', rfl⟩ := emits_cond.mp h
    have hvoid : Labelled [n] (c' ++ [.fetchConst .void]) :=
      (labelled_clauses clauses hc').append (.plain rfl rfl)
    have hlabel := hvoid.label
    rwa [List.append_assoc] at hlabel
  | .and [], _, _, _, _, h => by
    obtain ⟨rfl, rfl⟩ := emits_and_nil.mp h
    exact .plain rfl rfl
  | .and (e :: es), _, _, _, _, h => by
    obtain ⟨cs, k, hcs, rfl, rfl⟩ := emits_and.mp h
    have htest : Labelled [k] [.ifFalse [.goto k] []] :=
      ⟨(labelled_goto k).resolved, fun _ hb => absurd hb List.not_mem_nil⟩
    exact (labelled_removeLast htest rfl (ne_nil_of_compileSeq hcs) fun c hc =>
      (labelled_seq (e :: es) hcs c hc).of_nil).label
  | .or [], _, _, _, _, h => by
    obtain ⟨rfl, rfl⟩ := emits_or_nil.mp h
    exact .plain rfl rfl
  | .or (e :: es), _, _, _, _, h => by
    obtain ⟨cs, k, hcs, rfl, rfl⟩ := emits_or.mp h
    have htest : Labelled [k] [.ifTrue [.goto k] []] :=
      labelled_ifTrue (labelled_goto k) (.plain rfl rfl)
    exact (labelled_removeLast htest rfl (ne_nil_of_compileSeq hcs) fun c hc =>
      (labelled_seq (e :: es) hcs c hc).of_nil).label

theorem labelled_seq : (es : List Expr) → {istail : Bool} → {n m : ℕ} → {cs : List (List Code)} →
    compileSeq istail es n = some (cs, m) → ∀ c ∈ cs, Labelled [] c
  | [], _, _, _, _, h => by
    obtain ⟨rfl, rfl⟩ := emits_seq_nil.mp h
    exact nofun
  | e :: es, _, _, _, _, h => by
    obtain ⟨c, _, cs, hc, hcs, rfl⟩ := emits_seq_cons.mp h
    intro c' hc'
    rcases List.mem_cons.mp hc' with rfl | hc'
    · exact labelled_expr e hc
    · exact labelled_seq es hcs c' hc'

theorem labelled_clauses : (clauses : List (Expr × List Expr)) → {istail : Bool} → {l n m : ℕ} →
    {c : List Code} → compileClauses istail l clauses n = some (c, m) → Labelled [l] c
  | [], _, _, _, _, _, h => by
    obtain ⟨rfl, rfl⟩ := emits_clauses_nil.mp h
    exact .plain rfl rfl
  | (tst, seq) :: clauses, _, l, _, _, _, h => by
    obtain ⟨t, _, cs, _, rest, ht, hcs, hrest, rfl⟩ := emits_clauses_cons.mp h
    have hcon : Labelled [l] (cs.flatten ++ [.goto l]) :=
      (labelled_flatten (labelled_seq seq hcs)).of_nil.append (labelled_goto l)
    exact ((labelled_expr tst ht).of_nil.append (labelled_ifTrue hcon (.plain rfl rfl))).append
      (labelled_clauses clauses hrest)

end

/-- **The labels of a compiled program** differ, and in each of its procedures the ones that are
used are placed there once, behind their uses. -/
theorem labels_placed_behind {exps : List Expr} (h : compile exps = some prog) :
    (labels prog).Nodup ∧ ∀ c ∈ prog :: bodies prog, PlacedBehind (occurrences c) := by
  obtain ⟨⟨code, m⟩, hcode, rfl⟩ := Option.map_eq_some_iff.mp h
  have hnodup : (labels code).Nodup := (fresh_expr _ hcode).nodup
  have hlabelled : Labelled [] code := labelled_expr _ hcode
  refine ⟨hnodup, fun c hc => ?_⟩
  rcases List.mem_cons.mp hc with rfl | hc
  · exact hlabelled.resolved.placedBehind (hnodup.sublist (places_sublist _))
  · exact (hlabelled.bodies c hc).placedBehind
      (hnodup.sublist ((places_sublist c).trans (labels_sublist_of_mem_bodies _ hc)))

/-- `(or (f) #t)` -/
theorem labels_placed_behind_or : (labels [.pushCont 0, .lookupVar (.sym ['f']), .apply, .label 0,
    .blankLn, .ifTrue [.goto 1] [], .fetchConst (.boolean true), .label 1]).Nodup ∧
    ∀ c ∈ [.pushCont 0, .lookupVar (.sym ['f']), .apply, .label 0, .blankLn, .ifTrue [.goto 1] [],
      .fetchConst (.boolean true), .label 1] :: bodies [.pushCont 0, .lookupVar (.sym ['f']),
      .apply, .label 0, .blankLn, .ifTrue [.goto 1] [], .fetchConst (.boolean true), .label 1],
      PlacedBehind (occurrences c) :=
  labels_placed_behind (show compile [.or [.procCall (.variable (.sym ['f'])) [],
    .selfEval (.boolean true)]] = some _ from rfl)

end SchemeOs.Compiler
