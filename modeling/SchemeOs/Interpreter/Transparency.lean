import SchemeOs.Interpreter.Analysis
import SchemeOs.Interpreter.Retyping
import SchemeOs.Machinery.Fuel

/-!
# Interpreter/Transparency — evaluating what was analyzed

The arms of an `if`, the operands of an application and the bodies of procedures are analyzed once
and then handed to `schemeEval`, which analyzes what it gets.  A second analysis changes nothing,
and a form means the same before and after, unless its analysis is a constant with a meaning of its
own: `schemeTrue` for an `else`, and `schemeNull` for a form without operands.
-/

namespace SchemeOs

variable {ext : Externals} {m m' m₁ m₂ : Memory} {d a b : Datum} {p r env : Ptr} {n : ℕ}
  {k : Keyword} {t : SchemeType}

/-! ## Fuel of the analysis -/

/-- With more fuel the functions of the analysis return what they returned with less. -/
structure AnalysisGrows (ext : Externals) (n : ℕ) : Prop where
  analyze (p : Ptr) : Extends (analyze ext n p) (analyze ext (n + 1) p)
  keyword (k : Keyword) (p : Ptr) :
    Extends (analyzeKeyword ext n k p) (analyzeKeyword ext (n + 1) k p)
  application (p : Ptr) : Extends (analyzeApplication ext n p) (analyzeApplication ext (n + 1) p)
  tail (t : SchemeType) (p : Ptr) : Extends (analyzeTail ext n t p) (analyzeTail ext (n + 1) t p)
  sequence (p : Ptr) : Extends (analyzeSequence ext n p) (analyzeSequence ext (n + 1) p)
  elements (e q p : Ptr) :
    Extends (analyzeElements ext n e q p) (analyzeElements ext (n + 1) e q p)
  cond (p : Ptr) : Extends (analyzeCond ext n p) (analyzeCond ext (n + 1) p)
  clauses (e s p : Ptr) :
    Extends (analyzeClauses ext n e s p) (analyzeClauses ext (n + 1) e s p)
  definition (p : Ptr) : Extends (analyzeDefinition ext n p) (analyzeDefinition ext (n + 1) p)
  ifForm (p : Ptr) : Extends (analyzeIf ext n p) (analyzeIf ext (n + 1) p)
  lambda (p : Ptr) : Extends (analyzeLambda ext n p) (analyzeLambda ext (n + 1) p)
  assignment (p : Ptr) : Extends (analyzeAssignment ext n p) (analyzeAssignment ext (n + 1) p)

theorem AnalysisGrows.succ (ih : AnalysisGrows ext n) : AnalysisGrows ext (n + 1) where
  analyze p := by
    rw [SchemeOs.analyze, SchemeOs.analyze]
    refine .bind .refl fun t => .ite .refl ?_
    cases t with
    | pair =>
      refine .bind .refl fun head => .bind .refl fun t => ?_
      cases t with
      | symbol =>
        refine .bind .refl fun name => ?_
        cases findKeyword ext name with
        | some k => exact ih.keyword k p
        | none => exact ih.application p
      | pair => exact ih.application p
      | _ => exact .refl
    | _ => exact .refl
  keyword k p := by
    cases k with
    | and | begin | or => exact ih.tail _ p
    | cond => exact ih.cond p
    | define => exact ih.definition p
    | «if» => exact ih.ifForm p
    | lambda => exact ih.lambda p
    | set => exact ih.assignment p
    | _ => exact .refl
  application p := by
    rw [analyzeApplication, analyzeApplication]
    exact .bind (ih.sequence p) fun _ => .refl
  tail t p := by
    rw [analyzeTail, analyzeTail]
    exact .bind .refl fun q => .bind (ih.sequence q) fun _ => .refl
  sequence p := by
    rw [analyzeSequence, analyzeSequence]
    exact .bind (ih.elements _ _ p) fun _ => .refl
  elements e q p := by
    rw [analyzeElements, analyzeElements]
    refine .ite .refl (.bind .refl fun x => .bind (ih.analyze x) fun v => .bind .refl fun r =>
      .ite ?_ ?_)
    · exact .bind .refl fun y => ih.elements r r y
    · exact .bind .refl fun _ => .bind .refl fun y => ih.elements e r y
  cond p := by
    rw [analyzeCond, analyzeCond]
    exact .bind .refl fun q => .bind (ih.clauses _ _ q) fun _ => .refl
  clauses e s p := by
    rw [analyzeClauses, analyzeClauses]
    refine .ite .refl (.bind .refl fun c => .bind .refl fun x => .bind (ih.analyze x) fun v =>
      .bind .refl fun y => .bind (ih.sequence y) fun body => .bind .refl fun clause =>
        .bind .refl fun r => .ite ?_ ?_)
    · exact .bind .refl fun y => ih.clauses r r y
    · exact .bind .refl fun _ => .bind .refl fun y => ih.clauses e r y
  definition p := by
    rw [analyzeDefinition, analyzeDefinition]
    refine .bind .refl fun rest => .bind .refl fun q => .bind .refl fun t => ?_
    cases t with
    | symbol =>
      exact .bind .refl fun y => .bind .refl fun x => .bind (ih.analyze x) fun _ => .refl
    | pair =>
      exact .bind .refl fun f => .bind .refl fun vars => .bind .refl fun body =>
        .bind (ih.sequence body) fun _ => .refl
    | _ => exact .refl
  ifForm p := by
    rw [analyzeIf, analyzeIf]
    refine .bind .refl fun q => .bind .refl fun t => .ite (.bind .refl fun x =>
      .bind (ih.analyze x) fun pred => .bind .refl fun q => .bind .refl fun t => .ite ?_
        .refl) .refl
    refine .bind .refl fun x => .bind (ih.analyze x) fun cseq => .bind .refl fun q =>
      .bind .refl fun t => .ite ?_ .refl
    exact .bind .refl fun r => .ite .refl (.bind .refl fun x => .bind (ih.analyze x) fun _ => .refl)
  lambda p := by
    rw [analyzeLambda, analyzeLambda]
    exact .bind .refl fun rest => .bind .refl fun vars => .bind .refl fun body =>
      .bind (ih.sequence body) fun _ => .refl
  assignment p := by
    rw [analyzeAssignment, analyzeAssignment]
    exact .bind .refl fun rest => .bind .refl fun var => .bind .refl fun t => .ite .refl
      (.bind .refl fun y => .bind .refl fun x => .bind (ih.analyze x) fun _ => .refl)

/-- **More fuel gives the same analysis**, by induction on it. -/
theorem analysisGrows (ext : Externals) (n : ℕ) : AnalysisGrows ext n := by
  induction n with
  | zero =>
    constructor
    all_goals
      intros
      exact .of_failure
  | succ n ih => exact ih.succ

theorem ends_analyze {n : ℕ} (h : (analyze ext n p).run m = some (r, m')) :
    Ends (fun n => analyze ext n p) m r m' :=
  Extends.ends (fun n => (analysisGrows ext n).analyze p) h

/-! ## Evaluation after analysis

What `scheme_eval` does behind the analysis, and the evaluator on what an analysis has returned. -/

section

variable (ext : Externals)

/-- The rest of `schemeEval` once the expression is analyzed. -/
def evalNode (n : ℕ) (exp env : Ptr) : Comp Ptr := do
  let t ← schemeType exp
  if t = .selfEvaluating ∨ t = .quotedExpr then
    schemeCar exp
  else
    evalFun ext n t exp env

/-- `schemeEval` on the analyzed datum. -/
def evalAnalyzed (n : ℕ) (p env : Ptr) : Comp Ptr := do
  schemeEval ext n (← analyze ext n p) env

end

theorem schemeEval_succ (hp : p ≠ schemeNull) :
    schemeEval ext (n + 1) p env = analyze ext n p >>= fun e => evalNode ext n e env := by
  rw [schemeEval, EvalSteps.schemeEval, if_neg hp]
  rfl

theorem ends_schemeEval_null : Ends (fun n => schemeEval ext n schemeNull env) m schemeNull m := by
  refine .succ (.congr (fun n => ?_) .pure)
  rw [schemeEval, EvalSteps.schemeEval, if_pos rfl]

/-- The same memory, but perhaps with more objects. -/
def MoreObjects (m m' : Memory) : Prop :=
  ∃ objs, m' = { m with objs := m.objs ++ objs }

theorem MoreObjects.refl : MoreObjects m m := ⟨[], by rw [List.append_nil]⟩

/-- **Analysis is transparent** for the datum at `p`: evaluating what was analyzed is evaluating the
datum, and analyzing it again gives it back. -/
structure Transparent (ext : Externals) (m : Memory) (p : Ptr) : Prop where
  eval (env v : Ptr) (m' : Memory) : Ends (fun n => schemeEval ext n p env) m v m' →
    ∃ m'', MoreObjects m' m'' ∧ Ends (fun n => evalAnalyzed ext n p env) m v m''
  analyzed (env v : Ptr) (m'' : Memory) : Ends (fun n => evalAnalyzed ext n p env) m v m'' →
    ∃ m', MoreObjects m' m'' ∧ Ends (fun n => schemeEval ext n p env) m v m'
  again (r : Ptr) (m' : Memory) : Ends (fun n => analyze ext n p >>= analyze ext n) m r m' ↔
    Ends (fun n => analyze ext n p) m r m'

/-- A second analysis gives `r` back. -/
def Stable (ext : Externals) (m : Memory) (r : Ptr) : Prop :=
  ∀ n, (analyze ext (n + 1) r).run m = some (r, m)

/-- What is analyzed already is stable. -/
theorem stable_of_isExpr (ht : m.heap.type? r = some t) (hexpr : t.IsExpr) : Stable ext m r := by
  intro n
  rw [analyze, run_bind_of_run (run_schemeType ht)]
  exact congrArg (fun k => StateT.run k m) (if_pos hexpr)

theorem stable_void (hm : HasConstants m.heap) : Stable ext m schemeVoid := by
  intro n
  rw [analyze, run_bind_of_run (run_schemeType (Heap.type?_of_obj? hm.void))]
  rfl

/-- A stable result is analyzed to itself. -/
theorem Stable.ends (h : Stable ext m r) : Ends (fun n => analyze ext n r) m r m :=
  ends_analyze (h 0)

/-- What the analysis returns is stable, but for the `schemeTrue` of an `else`. -/
theorem Outcome.stable (hm : HasConstants m.heap) (h : Outcome ext d m r m')
    (helse : ∀ a b, d = .pair a b → ¬a.HasKeyword ext .else) : Stable ext m' r := by
  rcases h.result with ⟨t, ht, hexpr⟩ | rfl | ⟨-, a, b, hd, hk⟩
  · exact stable_of_isExpr ht hexpr
  · exact stable_void (h.effect.constants hm)
  · exact absurd hk (helse a b hd)

/-- A second analysis, where every result of the first is stable. -/
theorem again_iff (h : ∀ n r m', (analyze ext n p).run m = some (r, m') → Stable ext m' r) :
    Ends (fun n => analyze ext n p >>= analyze ext n) m r m' ↔
      Ends (fun n => analyze ext n p) m r m' := by
  constructor
  · rintro ⟨N, hN⟩
    have hrun := hN (N + 1) N.le_succ
    rw [StateT.run_bind] at hrun
    obtain ⟨⟨r₁, m₁⟩, hfirst, hsecond⟩ := Option.bind_eq_some_iff.mp hrun
    have hstable := h _ _ _ hfirst N
    rw [hstable] at hsecond
    cases hsecond
    exact ends_analyze hfirst
  · intro hends
    obtain ⟨N, hN⟩ := id hends
    exact hends.bind (h N r m' (hN N le_rfl)).ends

/-- **Evaluation of what was analyzed**, where that is stable and no empty list. -/
theorem evalAnalyzed_iff (hp : p ≠ schemeNull) {v : Ptr}
    (h : ∀ n r m', (analyze ext n p).run m = some (r, m') → Stable ext m' r ∧ r ≠ schemeNull) :
    Ends (fun n => evalAnalyzed ext n p env) m v m' ↔
      Ends (fun n => schemeEval ext n p env) m v m' := by
  have hrun : ∀ {n r m₁}, (analyze ext n p).run m = some (r, m₁) → ∀ i, n ≤ i →
      (evalAnalyzed ext (i + 2) p env).run m = (evalNode ext (i + 1) r env).run m₁ ∧
        (schemeEval ext (i + 2) p env).run m = (evalNode ext (i + 1) r env).run m₁ := by
    intro n r m₁ hana i hi
    obtain ⟨hstable, hnull⟩ := h n r m₁ hana
    have hgrow : ∀ i, n ≤ i → (analyze ext i p).run m = some (r, m₁) := fun i hi =>
      Extends.of_le (fun n => (analysisGrows ext n).analyze p) hi m r m₁ hana
    constructor
    · rw [evalAnalyzed, run_bind_of_run (hgrow _ (hi.trans (by omega))), schemeEval_succ hnull,
        run_bind_of_run (hstable i)]
    · rw [schemeEval_succ hp, run_bind_of_run (hgrow _ (hi.trans (by omega)))]
  constructor
  · rintro ⟨N, hN⟩
    have hN' : (evalAnalyzed ext N p env).run m = some (v, m') := hN N le_rfl
    rw [evalAnalyzed, StateT.run_bind] at hN'
    obtain ⟨⟨r, m₁⟩, hana, -⟩ := Option.bind_eq_some_iff.mp hN'
    refine ⟨N + 2, fun n hn => ?_⟩
    obtain ⟨i, rfl⟩ := Nat.exists_eq_add_of_le' ((by omega : 2 ≤ n))
    obtain ⟨heq, heq'⟩ := hrun hana i (by omega)
    rw [heq', ← heq]
    exact hN _ (by omega)
  · rintro ⟨N, hN⟩
    have hN' : (schemeEval ext (N + 1) p env).run m = some (v, m') := hN _ N.le_succ
    rw [schemeEval_succ hp, StateT.run_bind] at hN'
    obtain ⟨⟨r, m₁⟩, hana, -⟩ := Option.bind_eq_some_iff.mp hN'
    refine ⟨N + 2, fun n hn => ?_⟩
    obtain ⟨i, rfl⟩ := Nat.exists_eq_add_of_le' ((by omega : 2 ≤ n))
    obtain ⟨heq, heq'⟩ := hrun hana i (by omega)
    rw [heq, ← heq']
    exact hN _ (by omega)

/-! ## Forms without operands -/

/-- The type and the value of a form without operands. -/
def Keyword.empty? : Keyword → Option (SchemeType × Ptr)
  | .and => some (.andExpr, schemeTrue)
  | .begin => some (.beginExpr, schemeNull)
  | .cond => some (.condExpr, schemeVoid)
  | .or => some (.orExpr, schemeFalse)
  | _ => none

/-- An empty sequence sets the type of `scheme_null`. -/
theorem ends_analyzeSequence_null {o : Obj} (ho : m.heap.obj? schemeNull = some o) :
    Ends (fun n => analyzeSequence ext n schemeNull) m schemeNull
      (m.modify schemeNull fun o => { o with type := .sequenceExpr }) :=
  .succ (.bind (.succ (.ite_pos rfl .pure)) (.run_bind (run_schemeSetType ho) .pure))

/-- So does `begin`, `and` or `or` without operands. -/
theorem ends_analyzeTail_null (hm : HasConstants m.heap)
    (hcdr : (schemeCdr p).run m = some (schemeNull, m)) :
    ∃ m', Ends (fun n => analyzeTail ext n t p) m schemeNull m' ∧
      m'.heap.type? schemeNull = some t := by
  obtain ⟨u, hu, -⟩ := hm.null
  have hu' := Memory.obj?_modify_self (f := fun o => { o with type := .sequenceExpr }) hu
  exact ⟨_, .succ (.run_bind hcdr (.bind (ends_analyzeSequence_null hu)
    (.run_bind (run_schemeSetType hu') .pure))), type?_modify hu'⟩

/-- And `cond` without clauses. -/
theorem ends_analyzeCond_null (hm : HasConstants m.heap)
    (hcdr : (schemeCdr p).run m = some (schemeNull, m)) :
    ∃ m', Ends (fun n => analyzeCond ext n p) m schemeNull m' ∧
      m'.heap.type? schemeNull = some .condExpr := by
  obtain ⟨u, hu, -⟩ := hm.null
  exact ⟨_, .succ (.run_bind hcdr (.bind (.succ (.ite_pos rfl .pure))
    (.run_bind (run_schemeSetType hu) .pure))), type?_modify hu⟩

theorem Cell.isKeyword {x y : Ptr} (h : Cell m p a b x y) (hm : HasConstants m.heap)
    (hk : a.HasKeyword ext k) : IsKeyword ext m.heap x k := by
  cases a with
  | symbol name => exact ⟨h.car.type hm nofun, name, h.car.symbolVal, hk⟩
  | _ => exact hk.elim

/-- The analysis of a form without operands gives `schemeNull` the type of the form. -/
theorem ends_analyze_empty (hm : HasConstants m.heap) (h : Shows m.heap (.pair a .null) p)
    (hk : a.HasKeyword ext k) {v : Ptr} (hempty : k.empty? = some (t, v)) :
    ∃ m', Ends (fun n => analyze ext n p) m schemeNull m' ∧ m'.heap.type? schemeNull = some t := by
  obtain ⟨x, y, hcell⟩ := h.cell hm
  obtain rfl : y = schemeNull := hcell.cdr
  have hcdr := hcell.run_schemeCdr (.refl not_false)
  have hkeyword : ∃ m', Ends (fun n => analyzeKeyword ext n k p) m schemeNull m' ∧
      m'.heap.type? schemeNull = some t := by
    cases k with
    | and | begin | or =>
      cases hempty
      obtain ⟨m', hends, ht⟩ := ends_analyzeTail_null hm hcdr
      exact ⟨m', .succ hends, ht⟩
    | cond =>
      cases hempty
      obtain ⟨m', hends, ht⟩ := ends_analyzeCond_null hm hcdr
      exact ⟨m', .succ hends, ht⟩
    | _ => cases hempty
  obtain ⟨m', hends, ht⟩ := hkeyword
  refine ⟨m', analyze_keyword (x := x) (r := schemeNull) .refl ?_ ?_ hends, ht⟩
  · exact ⟨h.type hm nofun, Heap.car?_of_obj? hcell.obj, Heap.cdr?_of_obj? hcell.obj⟩
  · exact hcell.isKeyword hm hk

/-- What the dispatch on such a type gives for an empty list. -/
theorem evalFun_empty {v : Ptr} (hempty : k.empty? = some (t, v)) :
    evalFun ext (n + 2) t schemeNull env = pure v := by
  cases k <;> cases hempty
  · rw [evalFun, EvalSteps.evalFun, EvalSteps.evalAnd, if_pos rfl]
  · rw [evalFun, EvalSteps.evalFun, EvalSteps.schemeEvalSequence, if_pos rfl]
  · rw [evalFun, EvalSteps.evalFun, EvalSteps.evalCond, if_pos rfl]
  · rw [evalFun, EvalSteps.evalFun, EvalSteps.evalOr, if_pos rfl]

/-- A form without operands has a value, and after its analysis that of `()`. -/
theorem ends_schemeEval_empty (env : Ptr) (hm : HasConstants m.heap)
    (h : Shows m.heap (.pair a .null) p)
    (hk : a.HasKeyword ext k) {v : Ptr} (hempty : k.empty? = some (t, v)) :
    ∃ m', Ends (fun n => schemeEval ext n p env) m v m' ∧
      Ends (fun n => evalAnalyzed ext n p env) m schemeNull m' := by
  obtain ⟨m', hends, ht⟩ := ends_analyze_empty hm h hk hempty
  have hp : p ≠ schemeNull := fun hp => nomatch (h.eq_null_iff hm).mp hp
  refine ⟨m', ?_, hends.bind ends_schemeEval_null⟩
  have hself : ¬(t = .selfEvaluating ∨ t = .quotedExpr) := by
    cases k <;> cases hempty <;> decide
  exact .succ (.ite_neg hp (hends.bind (.run_bind (run_schemeType ht)
    (.ite_neg hself (.succ (.succ (.congr (fun n => evalFun_empty hempty) .pure)))))))

/-- The first evaluation gives that value, and a second one `scheme_null`. -/
theorem not_transparent_empty (hm : HasConstants m.heap) (h : Shows m.heap (.pair a .null) p)
    (hk : a.HasKeyword ext k) {v : Ptr} (hempty : k.empty? = some (t, v)) (hv : v ≠ schemeNull) :
    ¬Transparent ext m p := by
  intro htrans
  obtain ⟨m', heval, hanalyzed⟩ := ends_schemeEval_empty schemeNull hm h hk hempty
  obtain ⟨m'', -, hends⟩ := htrans.eval schemeNull v m' heval
  exact hv (hends.unique hanalyzed).1

/-! ## Where analysis is transparent -/

/-- The analysis of the datum is a constant with another meaning than the datum: that of an `else`,
or of a form without operands other than `begin`. -/
def Datum.BecomesConstant (ext : Externals) (d : Datum) : Prop :=
  ∃ a b, d = .pair a b ∧ (a.HasKeyword ext .else ∨
    b = .null ∧ ∃ k, a.HasKeyword ext k ∧ (k = .and ∨ k = .cond ∨ k = .or))

/-- `else` is analyzed to true. -/
theorem ends_analyze_else (hm : HasConstants m.heap) (h : Shows m.heap (.pair a b) p)
    (hk : a.HasKeyword ext .else) : Ends (fun n => analyze ext n p) m schemeTrue m := by
  obtain ⟨x, y, hcell⟩ := h.cell hm
  have hends : Ends (fun n => analyzeKeyword ext n .else p) m schemeTrue m := .succ .pure
  refine analyze_keyword (x := x) (r := y) .refl ?_ ?_ hends
  · exact ⟨h.type hm nofun, Heap.car?_of_obj? hcell.obj, Heap.cdr?_of_obj? hcell.obj⟩
  · exact hcell.isKeyword hm hk

theorem transparent_null (hm : HasConstants m.heap) : Transparent ext m schemeNull := by
  obtain ⟨t, ht, hor⟩ := hm.null
  have htype := Heap.type?_of_obj? ht
  -- what the analysis returns
  obtain ⟨r, m₁, hrun, hstable, hmore, hends⟩ : ∃ r m₁,
      Ends (fun n => analyze ext n schemeNull) m r m₁ ∧ Stable ext m₁ r ∧ MoreObjects m m₁ ∧
        ∀ env, Ends (fun n => schemeEval ext n r env) m₁ schemeNull m₁ := by
    rcases hor with rfl | hexpr
    · refine ⟨m.fresh, m.push ⟨.selfEvaluating, .pair schemeNull none⟩,
        .succ (.run_bind (run_schemeType htype) (.of_run run_schemeAllocObj)),
        stable_of_isExpr (Heap.type?_of_obj? Memory.obj?_push_fresh) (by decide), ⟨_, rfl⟩, ?_⟩
      intro env
      have hobj := Memory.obj?_push_fresh (m := m) (o := ⟨.selfEvaluating, .pair schemeNull none⟩)
      exact .succ (.ite_neg (Memory.ne_fresh ht).symm ((stable_of_isExpr
        (Heap.type?_of_obj? hobj) (by decide)).ends.bind (.run_bind
          (run_schemeType (Heap.type?_of_obj? hobj))
            (.ite_pos (.inl rfl) (.of_run (run_schemeCar (Heap.car?_of_obj? hobj)))))))
    · have hstable : Stable ext m schemeNull := stable_of_isExpr htype hexpr
      exact ⟨schemeNull, m, hstable.ends, hstable, .refl, fun env => ends_schemeEval_null⟩
  constructor
  · intro env v m' h
    obtain ⟨rfl, rfl⟩ := h.unique ends_schemeEval_null
    exact ⟨m₁, hmore, hrun.bind (hends env)⟩
  · intro env v m'' h
    obtain ⟨rfl, rfl⟩ := h.unique (hrun.bind (hends env))
    exact ⟨m, hmore, ends_schemeEval_null⟩
  · intro r' m'
    constructor
    · intro h
      obtain ⟨rfl, rfl⟩ := h.unique (hrun.bind hstable.ends)
      exact hrun
    · intro h
      obtain ⟨rfl, rfl⟩ := h.unique hrun
      exact hrun.bind hstable.ends

/-- **Analysis is transparent** unless it becomes a constant with another meaning. -/
theorem transparent_iff (hm : HasConstants m.heap) (h : Shows m.heap d p) :
    Transparent ext m p ↔ ¬d.BecomesConstant ext := by
  constructor
  · rintro htrans ⟨a, b, rfl, helse | ⟨rfl, k, hk, hor⟩⟩
    · have htrue := ends_analyze_else hm h helse
      have hagain := (htrans.again _ _).mpr htrue
      have hself : (analyze ext 1 schemeTrue).run m =
          some (m.fresh, m.push ⟨.selfEvaluating, .pair schemeTrue none⟩) := by
        rw [analyze, run_bind_of_run (run_schemeType (Heap.type?_of_obj? hm.true))]
        rfl
      exact Memory.ne_fresh hm.true (hagain.unique (htrue.bind (ends_analyze hself))).1
    · have hv : ∃ t v, k.empty? = some (t, v) ∧ v ≠ schemeNull := by
        rcases hor with rfl | rfl | rfl <;> exact ⟨_, _, rfl, by decide⟩
      obtain ⟨t, v, hempty, hne⟩ := hv
      exact not_transparent_empty hm h hk hempty hne htrans
  · intro hd
    by_cases hnull : d = .null
    · subst hnull
      obtain rfl : p = schemeNull := h
      exact transparent_null hm
    have hp : p ≠ schemeNull := fun hp => hnull ((h.eq_null_iff hm).mp hp)
    have hout : ∀ n r m', (analyze ext n p).run m = some (r, m') → Outcome ext d m r m' :=
      fun n r m' hrun => (analysisSpec ext n).analyze hm h r m' hrun
    have hstable : ∀ n r m', (analyze ext n p).run m = some (r, m') → Stable ext m' r :=
      fun n r m' hrun => (hout n r m' hrun).stable hm fun a b hab hk => hd ⟨a, b, hab, .inl hk⟩
    by_cases hbegin : ∃ a, d = .pair a .null ∧ a.HasKeyword ext .begin
    · -- `(begin)` becomes `schemeNull`, and both have the value `()`
      obtain ⟨a, rfl, hk⟩ := hbegin
      have hends := fun env => ends_schemeEval_empty env hm h hk rfl
      refine ⟨fun env v m' hrun => ?_, fun env v m' hrun => ?_, fun r m' => again_iff hstable⟩
      · obtain ⟨m₁, heval, hanalyzed⟩ := hends env
        obtain ⟨rfl, rfl⟩ := hrun.unique heval
        exact ⟨_, .refl, hanalyzed⟩
      · obtain ⟨m₁, heval, hanalyzed⟩ := hends env
        obtain ⟨rfl, rfl⟩ := hrun.unique hanalyzed
        exact ⟨_, .refl, heval⟩
    · have hne : ∀ n r m', (analyze ext n p).run m = some (r, m') → r ≠ schemeNull := by
        intro n r m' hrun hr
        rcases (hout n r m' hrun).null hr with h' | ⟨a, k, hab, hk, hor⟩
        · exact hnull h'
        · rcases hor with (rfl | rfl | rfl) | rfl
          · exact hd ⟨a, _, hab, .inr ⟨rfl, _, hk, .inl rfl⟩⟩
          · exact hbegin ⟨a, hab, hk⟩
          · exact hd ⟨a, _, hab, .inr ⟨rfl, _, hk, .inr (.inr rfl)⟩⟩
          · exact hd ⟨a, _, hab, .inr ⟨rfl, _, hk, .inr (.inl rfl)⟩⟩
      have hiff : ∀ {env v m'}, Ends (fun n => evalAnalyzed ext n p env) m v m' ↔
          Ends (fun n => schemeEval ext n p env) m v m' :=
        evalAnalyzed_iff hp fun n r m' hrun => ⟨hstable n r m' hrun, hne n r m' hrun⟩
      exact ⟨fun env v m' hrun => ⟨m', .refl, hiff.mpr hrun⟩,
        fun env v m' hrun => ⟨m', .refl, hiff.mp hrun⟩, fun r m' => again_iff hstable⟩

theorem transparent_iff_and : Transparent zeroExternals andMemory (.obj 10) ↔
    ¬(Datum.pair (.symbol ['a', 'n', 'd']) (.pair (.symbol ['x']) .null)).BecomesConstant
      zeroExternals :=
  transparent_iff hasConstants_andMemory
    ⟨.obj 6, .obj 9, rfl, rfl, .obj 8, schemeNull, rfl, rfl, rfl⟩

/-- `(and)` is true, but `()` once it was analyzed. -/
theorem not_transparent_and : ¬∀ (m : Memory) (d : Datum) (p : Ptr), HasConstants m.heap →
    Shows m.heap d p → Transparent zeroExternals m p := by
  intro h
  have hkeyword : findKeyword zeroExternals ['a', 'n', 'd'] = some .and := by decide +kernel
  have hshows : Shows andMemory.heap (.pair (.symbol ['a', 'n', 'd']) .null) (.obj 7) :=
    ⟨.obj 6, schemeNull, rfl, rfl, rfl⟩
  exact not_transparent_empty hasConstants_andMemory hshows hkeyword rfl (by decide)
    (h andMemory _ _ hasConstants_andMemory hshows)

end SchemeOs
