import SchemeOs.Compiler.Conversion
import SchemeOs.Compiler.Links

/-!
# Compiler/Values — the value of an expression

The forms that only load and test values: their code runs to its end, and what it loads on the way
is what the evaluation of the expression loads, in that order.  A constant is false when the one
that comes back from the C file is, so the branches taken are the right ones; the value in
`reg_value` is that of the expression unless it is a constant that comes back as another.
-/

namespace SchemeOs.Compiler

variable {prog c k : List Code} {env : CompileTimeEnvt} {l n m : ℕ} {istail : Bool}

/-! ## Evaluation

Which constant or variable an expression loads last, for a program of pure expressions. -/

/-- A constant is loaded, or the value of a variable. -/
inductive Load where
  | const (d : Datum)
  | var (x : Sym)

mutual

/-- The forms that load and test values, with variables that are bound and constants that are
declared. -/
def Pure (env : CompileTimeEnvt) : Expr → Prop
  | .variable x => env.Binds x
  | .quote d => Declarable d
  | .selfEval d => Declarable d
  | .sequence exps => exps ≠ [] ∧ AllPure env exps
  | .branch test thenExp elseExp => Pure env test ∧ Pure env thenExp ∧ Pure env elseExp
  | .cond clauses => ClausesPure env clauses
  | .and exps => AllPure env exps
  | .or exps => AllPure env exps
  | .procCall _ _ => False
  | .lambda _ _ => False
  | .defvar _ _ => False
  | .defun _ _ _ => False
  | .defun2 _ _ _ _ => False
  | .assign _ _ => False
  | .case _ _ _ => False
  | .let _ _ => False

/-- `Pure`, for every expression. -/
def AllPure (env : CompileTimeEnvt) : List Expr → Prop
  | [] => True
  | exp :: exps => Pure env exp ∧ AllPure env exps

/-- `Pure`, for every test and every body. -/
def ClausesPure (env : CompileTimeEnvt) : List (Expr × List Expr) → Prop
  | [] => True
  | (tst, seq) :: clauses => Pure env tst ∧ AllPure env seq ∧ ClausesPure env clauses

end

mutual

/-- The value of an expression where constants have the values `κ` and variables the values `ρ`, and
what is loaded for it: the subexpressions that are constants and variables, `(and)` and `(or)`, and
the `void` of a `cond` with no true clause.  What the expression means is its value for `.const`. -/
def evalExpr (κ : Datum → Val) (ρ : Sym → Val) : Expr → Val × List Load
  | .variable x => (ρ x, [.var x])
  | .quote d => (κ d, [.const d])
  | .selfEval d => (κ d, [.const d])
  | .sequence exps => evalSeq κ ρ .junk exps
  | .branch test thenExp elseExp =>
    let t := evalExpr κ ρ test
    let v := if falsep t.1 then evalExpr κ ρ elseExp else evalExpr κ ρ thenExp
    (v.1, t.2 ++ v.2)
  | .cond clauses => evalCond κ ρ clauses
  | .and [] => (κ (.boolean true), [.const (.boolean true)])
  | .and (exp :: exps) => evalUntil κ ρ true (.const (.boolean true)) (exp :: exps)
  | .or [] => (κ (.boolean false), [.const (.boolean false)])
  | .or (exp :: exps) => evalUntil κ ρ false (.const (.boolean false)) (exp :: exps)
  | _ => (.junk, [])

/-- The value of the last expression of a body, which is `v` if there is none. -/
def evalSeq (κ : Datum → Val) (ρ : Sym → Val) (v : Val) : List Expr → Val × List Load
  | [] => (v, [])
  | exp :: exps =>
    let r := evalExpr κ ρ exp
    let s := evalSeq κ ρ r.1 exps
    (s.1, r.2 ++ s.2)

/-- Operands are evaluated until one is false (`and`), or until one is not (`or`): the value is that
of the last operand evaluated, which was `v`. -/
def evalUntil (κ : Datum → Val) (ρ : Sym → Val) (isFalse : Bool) (v : Val) :
    List Expr → Val × List Load
  | [] => (v, [])
  | exp :: exps =>
    if falsep v = isFalse then (v, [])
    else
      let r := evalExpr κ ρ exp
      let s := evalUntil κ ρ isFalse r.1 exps
      (s.1, r.2 ++ s.2)

/-- The first clause with a true test has the value of its body, or that of the test. -/
def evalCond (κ : Datum → Val) (ρ : Sym → Val) : List (Expr × List Expr) → Val × List Load
  | [] => (κ .void, [.const .void])
  | (tst, seq) :: clauses =>
    let t := evalExpr κ ρ tst
    let v := if falsep t.1 then evalCond κ ρ clauses else evalSeq κ ρ t.1 seq
    (v.1, t.2 ++ v.2)

end

section

variable {κ : Datum → Val} {ρ : Sym → Val} {b : Bool} {v : Val}

theorem evalUntil_of_eq (hv : falsep v = b) : (exps : List Expr) → evalUntil κ ρ b v exps = (v, [])
  | [] => by rw [evalUntil]
  | _ :: _ => by rw [evalUntil, if_pos hv]

theorem evalUntil_cons (hv : falsep v ≠ b) (exp : Expr) (exps : List Expr) :
    evalUntil κ ρ b v (exp :: exps) = ((evalUntil κ ρ b (evalExpr κ ρ exp).1 exps).1,
      (evalExpr κ ρ exp).2 ++ (evalUntil κ ρ b (evalExpr κ ρ exp).1 exps).2) := by
  rw [evalUntil, if_neg hv]

end

/-! ## Executions -/

/-- The value of a variable. -/
def Svm.valueOf (m : Svm) (env : CompileTimeEnvt) (x : Sym) : Val :=
  match lookupvar x env with
  | some (level, offset) => m.bindings (createRef m.enclosing level m.envt) offset
  | none => .junk

/-- The registers with another value. -/
def Svm.setValue (m : Svm) (v : Val) : Svm := { m with value := v }

@[simp] theorem Svm.setValue_value (m : Svm) (v : Val) : (m.setValue v).value = v := rfl

@[simp] theorem Svm.setValue_self (m : Svm) : m.setValue m.value = m := rfl

@[simp] theorem Svm.setValue_setValue (m : Svm) (v w : Val) :
    (m.setValue v).setValue w = m.setValue w := rfl

@[simp] theorem Svm.valueOf_setValue (m : Svm) (v : Val) : (m.setValue v).valueOf = m.valueOf := rfl

/-- What the next instruction loads. -/
def State.load (s : State) : Option Load :=
  match s.code with
  | .fetchConst d :: _ => some (.const d)
  | .lookupVar x :: _ => some (.var x)
  | _ => none

/-- The run from `s` to `t` loads `ls`. -/
def Executes (prog : List Code) (s : State) (ls : List Load) (t : State) : Prop :=
  ∃ as, Runs (Steps prog) s as t ∧ as.filterMap State.load = ls

namespace Executes

variable {s t u : State} {ls ls' : List Load}

theorem refl (s : State) : Executes prog s [] s := ⟨[], .nil s, rfl⟩

theorem trans (h : Executes prog s ls t) (h' : Executes prog t ls' u) :
    Executes prog s (ls ++ ls') u := by
  obtain ⟨as, has, rfl⟩ := h
  obtain ⟨bs, hbs, rfl⟩ := h'
  exact ⟨as ++ bs, has.append hbs, List.filterMap_append⟩

theorem of_step (h : step prog s = some t) : Executes prog s s.load.toList t :=
  ⟨[s], .single ⟨rfl, h⟩, by cases hl : s.load <;> simp [hl]⟩

/-- A step that loads nothing. -/
theorem step_left (h : step prog s = some t) (hs : s.load = none) (h' : Executes prog t ls u) :
    Executes prog s ls u := by
  have happ := (of_step h).trans h'
  rwa [hs] at happ

end Executes

/-! ## Compiled code -/

theorem executes_fetchConst (d : Datum) (M : Svm) :
    Executes prog ⟨env, [.fetchConst d] ++ k, M⟩ [.const d] ⟨env, k, M.setValue (.ofConst d)⟩ :=
  Executes.of_step rfl

theorem executes_lookupVar {x : Sym} (hx : env.Binds x) (M : Svm) :
    Executes prog ⟨env, [.lookupVar x] ++ k, M⟩ [.var x]
      ⟨env, k, M.setValue (M.valueOf env x)⟩ := by
  have hsome : (lookupvar x env).isSome := lookupvar'_isSome.mpr hx
  obtain ⟨a, hvar⟩ := Option.isSome_iff_exists.mp hsome
  refine Executes.of_step ?_
  simp only [step, List.cons_append, List.nil_append, hvar, Option.map_some, Svm.valueOf,
    Svm.setValue]

/-- A jump to a label that stands in front of `k`. -/
theorem executes_goto (hlabel : LinkedIn prog env k (.label l)) (k' : List Code) (M : Svm) :
    Executes prog ⟨env, [.goto l] ++ k', M⟩ [] ⟨env, k, M⟩ := by
  rw [LinkedIn] at hlabel
  refine Executes.of_step ?_
  simp only [step, List.cons_append, hlabel, Option.map_some]

mutual

/-- **The code of an expression** runs to its end, and its value is in `reg_value`. -/
theorem executes_expr : (e : Expr) → {istail : Bool} → {n m : ℕ} → {c k : List Code} →
    compileExprM istail e n = some (c, m) → Linked prog env k c → Pure env e → (M : Svm) →
      Executes prog ⟨env, c ++ k, M⟩ (evalExpr .ofConst (M.valueOf env) e).2
        ⟨env, k, M.setValue (evalExpr .ofConst (M.valueOf env) e).1⟩
  | .variable x, _, _, _, _, _, h, _, hpure, M => by
    obtain ⟨rfl, rfl⟩ := emits_variable.mp h
    rw [Pure] at hpure
    rw [evalExpr]
    exact executes_lookupVar hpure M
  | .quote d, _, _, _, _, _, h, _, _, M => by
    obtain ⟨rfl, rfl⟩ := emits_quote.mp h
    rw [evalExpr]
    exact executes_fetchConst d M
  | .selfEval d, _, _, _, _, _, h, _, _, M => by
    obtain ⟨rfl, rfl⟩ := emits_selfEval.mp h
    rw [evalExpr]
    exact executes_fetchConst d M
  | .sequence es, _, _, _, _, _, h, hlinked, hpure, M => by
    obtain ⟨cs, hcs, rfl⟩ := emits_sequence.mp h
    rw [Pure] at hpure
    rw [evalExpr]
    exact executes_seq es hcs hlinked hpure.2 M fun hnil => absurd hnil hpure.1
  | .branch test thenExp elseExp, _, _, _, _, k, h, hlinked, hpure, M => by
    obtain ⟨cTest, _, cThen, _, cElse, hTest, hThen, hElse, rfl⟩ := emits_branch.mp h
    rw [linked_append, linked_singleton, LinkedIn] at hlinked
    obtain ⟨hlTest, hlThen, hlElse⟩ := hlinked
    rw [Pure] at hpure
    rw [evalExpr, List.append_assoc]
    refine (executes_expr test hTest hlTest hpure.1 M).trans (.step_left rfl rfl ?_)
    rw [Svm.setValue_value]
    split_ifs
    · simpa using executes_expr elseExp hElse hlElse hpure.2.2 (M.setValue _)
    · simpa using executes_expr thenExp hThen hlThen hpure.2.1 (M.setValue _)
  | .cond clauses, _, n, _, _, k, h, hlinked, hpure, M => by
    obtain ⟨c', hc', rfl⟩ := emits_cond.mp h
    rw [linked_append, Linked, linked_singleton] at hlinked
    obtain ⟨hlinked, -, hlabel⟩ := hlinked
    rw [Pure] at hpure
    rw [evalExpr, List.append_assoc]
    exact executes_clauses clauses hc' hlinked hlabel hpure M
  | .and [], _, _, _, _, _, h, _, _, M => by
    obtain ⟨rfl, rfl⟩ := emits_and_nil.mp h
    rw [evalExpr]
    exact executes_fetchConst _ M
  | .and (e :: es), _, _, _, _, _, h, hlinked, hpure, M => by
    obtain ⟨cs, l, hcs, rfl, rfl⟩ := emits_and.mp h
    rw [linked_append, linked_singleton] at hlinked
    rw [Pure] at hpure
    rw [evalExpr, List.append_assoc]
    refine executes_until (e :: es) hcs hlinked.1 hlinked.2 hpure (List.cons_ne_nil e es) ?_ ?_ M
    · exact fun k N => ⟨by cases hN : falsep N.value <;> simp [step, hN], rfl⟩
    · decide
  | .or [], _, _, _, _, _, h, _, _, M => by
    obtain ⟨rfl, rfl⟩ := emits_or_nil.mp h
    rw [evalExpr]
    exact executes_fetchConst _ M
  | .or (e :: es), _, _, _, _, _, h, hlinked, hpure, M => by
    obtain ⟨cs, l, hcs, rfl, rfl⟩ := emits_or.mp h
    rw [linked_append, linked_singleton] at hlinked
    rw [Pure] at hpure
    rw [evalExpr, List.append_assoc]
    refine executes_until (e :: es) hcs hlinked.1 hlinked.2 hpure (List.cons_ne_nil e es) ?_ ?_ M
    · exact fun k N => ⟨by cases hN : falsep N.value <;> simp [step, hN], rfl⟩
    · decide
  | .procCall _ _, _, _, _, _, _, _, _, hpure, _ => hpure.elim
  | .lambda _ _, _, _, _, _, _, _, _, hpure, _ => hpure.elim
  | .defvar _ _, _, _, _, _, _, _, _, hpure, _ => hpure.elim
  | .defun _ _ _, _, _, _, _, _, _, _, hpure, _ => hpure.elim
  | .defun2 _ _ _ _, _, _, _, _, _, _, _, hpure, _ => hpure.elim
  | .assign _ _, _, _, _, _, _, _, _, hpure, _ => hpure.elim
  | .case _ _ _, _, _, _, _, _, _, _, hpure, _ => hpure.elim
  | .let _ _, _, _, _, _, _, _, _, hpure, _ => hpure.elim

theorem executes_seq : (es : List Expr) → {istail : Bool} → {n m : ℕ} → {cs : List (List Code)} →
    {k : List Code} → {v : Val} → compileSeq istail es n = some (cs, m) →
    Linked prog env k cs.flatten → AllPure env es → (M : Svm) → (es = [] → v = M.value) →
      Executes prog ⟨env, cs.flatten ++ k, M⟩ (evalSeq .ofConst (M.valueOf env) v es).2
        ⟨env, k, M.setValue (evalSeq .ofConst (M.valueOf env) v es).1⟩
  | [], _, _, _, _, _, _, h, _, _, M, hv => by
    obtain ⟨rfl, rfl⟩ := emits_seq_nil.mp h
    rw [evalSeq, hv rfl]
    exact .refl _
  | e :: es, _, _, _, _, _, _, h, hlinked, hpure, M, _ => by
    obtain ⟨c, _, cs, hc, hcs, rfl⟩ := emits_seq_cons.mp h
    rw [List.flatten_cons, linked_append] at hlinked
    rw [AllPure] at hpure
    rw [List.flatten_cons, evalSeq, List.append_assoc]
    exact (executes_expr e hc hlinked.1 hpure.1 M).trans
      (executes_seq es hcs hlinked.2 hpure.2 (M.setValue _) fun _ => rfl)

/-- The operands of `and` and `or`, with the test `t` after each but the last, which jumps to the
label `l` behind them. -/
theorem executes_until : (es : List Expr) → {istail : Bool} → {n m l : ℕ} →
    {cs : List (List Code)} → {k : List Code} → {b : Bool} → {t : Code} → {v : Val} →
    compileSeq istail es n = some (cs, m) →
    Linked prog env ([.label l] ++ k) (removeLast (withTail [t] cs)) →
    LinkedIn prog env k (.label l) → AllPure env es → es ≠ [] →
    (∀ k N, step prog ⟨env, t :: k, N⟩ =
        some ⟨env, (if falsep N.value = b then [.goto l] else []) ++ k, N⟩ ∧
      State.load ⟨env, t :: k, N⟩ = none) →
    falsep v ≠ b → (M : Svm) →
      Executes prog ⟨env, removeLast (withTail [t] cs) ++ ([.label l] ++ k), M⟩
        (evalUntil .ofConst (M.valueOf env) b v es).2
        ⟨env, k, M.setValue (evalUntil .ofConst (M.valueOf env) b v es).1⟩
  | [], _, _, _, _, _, _, _, _, _, _, _, _, _, hne, _, _, _ => absurd rfl hne
  | e :: es, _, _, _, _, _, _, b, t, _, h, hlinked, hlabel, hpure, _, ht, hv, M => by
    obtain ⟨c, _, cs, hc, hcs, rfl⟩ := emits_seq_cons.mp h
    rw [AllPure] at hpure
    rw [removeLast_withTail_cons] at hlinked ⊢
    rw [evalUntil_cons hv]
    cases es with
    | nil =>
      -- the last operand is not tested, and the label is next
      obtain ⟨rfl, -⟩ := emits_seq_nil.mp hcs
      rw [if_pos rfl] at hlinked ⊢
      rw [evalUntil]
      exact (executes_expr e hc hlinked hpure.1 M).trans (.step_left rfl rfl (.refl _))
    | cons e' es =>
      have hne := ne_nil_of_compileSeq hcs
      rw [if_neg hne, linked_append, Linked] at hlinked
      rw [if_neg hne, List.append_assoc]
      refine (executes_expr e hc hlinked.1 hpure.1 M).trans ?_
      refine .step_left (ht _ _).1 (ht _ _).2 ?_
      rw [Svm.setValue_value]
      by_cases hr : falsep (evalExpr .ofConst (M.valueOf env) e).1 = b
      · -- the jump out of the block goes behind the label
        rw [if_pos hr, evalUntil_of_eq hr]
        exact executes_goto hlabel _ _
      · rw [if_neg hr, List.nil_append]
        simpa using executes_until (e' :: es) hcs hlinked.2.2 hlabel hpure.2
          (List.cons_ne_nil e' es) ht hr (M.setValue (evalExpr .ofConst (M.valueOf env) e).1)

/-- The clauses of `cond`, with the label `l` behind them. -/
theorem executes_clauses : (clauses : List (Expr × List Expr)) → {istail : Bool} → {l n m : ℕ} →
    {c k : List Code} → compileClauses istail l clauses n = some (c, m) →
    Linked prog env ([.fetchConst .void, .label l] ++ k) c → LinkedIn prog env k (.label l) →
    ClausesPure env clauses → (M : Svm) →
      Executes prog ⟨env, c ++ ([.fetchConst .void, .label l] ++ k), M⟩
        (evalCond .ofConst (M.valueOf env) clauses).2
        ⟨env, k, M.setValue (evalCond .ofConst (M.valueOf env) clauses).1⟩
  | [], _, _, _, _, _, _, h, _, _, _, M => by
    obtain ⟨rfl, rfl⟩ := emits_clauses_nil.mp h
    rw [evalCond]
    exact (executes_fetchConst .void M).trans (.step_left rfl rfl (.refl _))
  | (tst, seq) :: clauses, _, l, _, _, _, k, h, hlinked, hlabel, hpure, M => by
    obtain ⟨c, _, cs, _, rest, hc, hcs, hrest, rfl⟩ := emits_clauses_cons.mp h
    rw [linked_append, linked_append, linked_singleton, LinkedIn, linked_append] at hlinked
    obtain ⟨⟨hlTst, ⟨hlSeq, -⟩, -⟩, hlRest⟩ := hlinked
    rw [ClausesPure] at hpure
    rw [evalCond, List.append_assoc, List.append_assoc]
    refine (executes_expr tst hc hlTst hpure.1 M).trans (.step_left rfl rfl ?_)
    rw [Svm.setValue_value]
    split_ifs
    · simpa using executes_clauses clauses hrest hlRest hlabel hpure.2.2 (M.setValue _)
    · -- the body ends with a jump out of the block
      rw [List.append_assoc]
      have hbody := executes_seq seq hcs hlSeq hpure.2.1
        (M.setValue (evalExpr .ofConst (M.valueOf env) tst).1) fun _ => rfl
      simpa using hbody.trans (executes_goto hlabel _ _)

end

mutual

/-- The compiler rejects none of these forms. -/
theorem exists_code : (e : Expr) → (istail : Bool) → (n : ℕ) → Pure env e →
    ∃ c m, compileExprM istail e n = some (c, m)
  | .variable _, _, _, _ => ⟨_, _, emits_variable.mpr ⟨rfl, rfl⟩⟩
  | .quote _, _, _, _ => ⟨_, _, emits_quote.mpr ⟨rfl, rfl⟩⟩
  | .selfEval _, _, _, _ => ⟨_, _, emits_selfEval.mpr ⟨rfl, rfl⟩⟩
  | .sequence es, istail, n, hpure => by
    rw [Pure] at hpure
    obtain ⟨cs, m, hcs⟩ := exists_code_seq es istail n hpure.2
    exact ⟨_, m, emits_sequence.mpr ⟨cs, hcs, rfl⟩⟩
  | .branch test thenExp elseExp, istail, n, hpure => by
    rw [Pure] at hpure
    obtain ⟨_, n₁, hTest⟩ := exists_code test false n hpure.1
    obtain ⟨_, n₂, hThen⟩ := exists_code thenExp istail n₁ hpure.2.1
    obtain ⟨_, m, hElse⟩ := exists_code elseExp istail n₂ hpure.2.2
    exact ⟨_, m, emits_branch.mpr ⟨_, _, _, _, _, hTest, hThen, hElse, rfl⟩⟩
  | .cond clauses, istail, n, hpure => by
    rw [Pure] at hpure
    obtain ⟨c, m, hc⟩ := exists_code_clauses clauses istail n (n + 1) hpure
    exact ⟨_, m, emits_cond.mpr ⟨c, hc, rfl⟩⟩
  | .and [], _, _, _ => ⟨_, _, emits_and_nil.mpr ⟨rfl, rfl⟩⟩
  | .and (e :: es), istail, n, hpure => by
    rw [Pure] at hpure
    obtain ⟨cs, m, hcs⟩ := exists_code_seq (e :: es) istail n hpure
    exact ⟨_, m + 1, emits_and.mpr ⟨cs, m, hcs, rfl, rfl⟩⟩
  | .or [], _, _, _ => ⟨_, _, emits_or_nil.mpr ⟨rfl, rfl⟩⟩
  | .or (e :: es), istail, n, hpure => by
    rw [Pure] at hpure
    obtain ⟨cs, m, hcs⟩ := exists_code_seq (e :: es) istail n hpure
    exact ⟨_, m + 1, emits_or.mpr ⟨cs, m, hcs, rfl, rfl⟩⟩
  | .procCall _ _, _, _, hpure => hpure.elim
  | .lambda _ _, _, _, hpure => hpure.elim
  | .defvar _ _, _, _, hpure => hpure.elim
  | .defun _ _ _, _, _, hpure => hpure.elim
  | .defun2 _ _ _ _, _, _, hpure => hpure.elim
  | .assign _ _, _, _, hpure => hpure.elim
  | .case _ _ _, _, _, hpure => hpure.elim
  | .let _ _, _, _, hpure => hpure.elim

theorem exists_code_seq : (es : List Expr) → (istail : Bool) → (n : ℕ) → AllPure env es →
    ∃ cs m, compileSeq istail es n = some (cs, m)
  | [], _, n, _ => ⟨_, n, emits_seq_nil.mpr ⟨rfl, rfl⟩⟩
  | e :: es, istail, n, hpure => by
    rw [AllPure] at hpure
    obtain ⟨c, k, hc⟩ := exists_code e (istail && es.isEmpty) n hpure.1
    obtain ⟨cs, m, hcs⟩ := exists_code_seq es istail k hpure.2
    exact ⟨_, m, emits_seq_cons.mpr ⟨c, k, cs, hc, hcs, rfl⟩⟩

theorem exists_code_clauses : (clauses : List (Expr × List Expr)) → (istail : Bool) → (l n : ℕ) →
    ClausesPure env clauses → ∃ c m, compileClauses istail l clauses n = some (c, m)
  | [], _, _, n, _ => ⟨_, n, emits_clauses_nil.mpr ⟨rfl, rfl⟩⟩
  | (tst, seq) :: clauses, istail, l, n, hpure => by
    rw [ClausesPure] at hpure
    obtain ⟨_, n₁, ht⟩ := exists_code tst false n hpure.1
    obtain ⟨_, n₂, hcs⟩ := exists_code_seq seq istail n₁ hpure.2.1
    obtain ⟨_, m, hrest⟩ := exists_code_clauses clauses istail l n₂ hpure.2.2
    exact ⟨_, m, emits_clauses_cons.mpr ⟨_, _, _, _, _, ht, hcs, hrest, rfl⟩⟩

end

/-! ## The constant that the value is

A constant is loaded as `createConsts` has declared it, which may be another one. -/

section

variable {κ : Datum → Val} {ρ : Sym → Val} {v v' : Val} {r r' q q' : Val × List Load}

/-- The value of what is loaded. -/
def Load.val (κ : Datum → Val) (ρ : Sym → Val) : Load → Val
  | .const d => κ d
  | .var x => ρ x

/-- The same is loaded, and the last of it is the value, for constants as they are meant and as they
are by `κ`. -/
def SameLoads (κ : Datum → Val) (ρ : Sym → Val) (r r' : Val × List Load) : Prop :=
  ∃ ls l, r = (l.val .const ρ, ls ++ [l]) ∧ r' = (l.val κ ρ, ls ++ [l])

theorem SameLoads.single (l : Load) : SameLoads κ ρ (l.val .const ρ, [l]) (l.val κ ρ, [l]) :=
  ⟨[], l, rfl, rfl⟩

theorem SameLoads.falsep_eq (hκ : ∀ d, falsep (κ d) = falsep (.const d))
    (h : SameLoads κ ρ r r') : falsep r'.1 = falsep r.1 := by
  obtain ⟨ls, l, rfl, rfl⟩ := h
  cases l with
  | const d => exact hκ d
  | var x => rfl

/-- What is loaded afterwards, if anything is. -/
theorem SameLoads.append (h : SameLoads κ ρ r r')
    (hq : q = (r.1, []) ∧ q' = (r'.1, []) ∨ SameLoads κ ρ q q') :
    SameLoads κ ρ (q.1, r.2 ++ q.2) (q'.1, r'.2 ++ q'.2) := by
  rcases hq with ⟨rfl, rfl⟩ | ⟨ls', l', rfl, rfl⟩
  · simpa using h
  · obtain ⟨ls, l, rfl, rfl⟩ := h
    exact ⟨ls ++ [l] ++ ls', l', by simp, by simp⟩

mutual

/-- **The value is what is loaded last**, and a constant that comes back as another one does not
change what is loaded. -/
theorem sameLoads_expr (hκ : ∀ d, falsep (κ d) = falsep (.const d)) : (e : Expr) → Pure env e →
    SameLoads κ ρ (evalExpr .const ρ e) (evalExpr κ ρ e)
  | .variable x, _ => by
    rw [evalExpr, evalExpr]
    exact .single (.var x)
  | .quote d, _ => by
    rw [evalExpr, evalExpr]
    exact .single (.const d)
  | .selfEval d, _ => by
    rw [evalExpr, evalExpr]
    exact .single (.const d)
  | .sequence es, h => by
    rw [Pure] at h
    rw [evalExpr, evalExpr]
    refine (sameLoads_seq hκ es h.2 .junk .junk).resolve_left fun hnil => ?_
    exact h.1 hnil.1
  | .branch test thenExp elseExp, h => by
    rw [Pure] at h
    have htest := sameLoads_expr hκ test h.1
    rw [evalExpr, evalExpr]
    refine htest.append (.inr ?_)
    rw [htest.falsep_eq hκ]
    split_ifs
    · exact sameLoads_expr hκ elseExp h.2.2
    · exact sameLoads_expr hκ thenExp h.2.1
  | .cond clauses, h => by
    rw [Pure] at h
    rw [evalExpr, evalExpr]
    exact sameLoads_clauses hκ clauses h
  | .and [], _ => by
    rw [evalExpr, evalExpr]
    exact .single (.const (.boolean true))
  | .and (e :: es), h => by
    rw [Pure] at h
    rw [evalExpr, evalExpr]
    exact (sameLoads_until hκ (e :: es) h rfl).resolve_left fun hnil =>
      absurd hnil.1 (by simp [falsep])
  | .or [], _ => by
    rw [evalExpr, evalExpr]
    exact .single (.const (.boolean false))
  | .or (e :: es), h => by
    rw [Pure] at h
    rw [evalExpr, evalExpr]
    exact (sameLoads_until hκ (e :: es) h rfl).resolve_left fun hnil =>
      absurd hnil.1 (by simp [falsep])
  | .procCall _ _, h => h.elim
  | .lambda _ _, h => h.elim
  | .defvar _ _, h => h.elim
  | .defun _ _ _, h => h.elim
  | .defun2 _ _ _ _, h => h.elim
  | .assign _ _, h => h.elim
  | .case _ _ _, h => h.elim
  | .let _ _, h => h.elim

theorem sameLoads_seq (hκ : ∀ d, falsep (κ d) = falsep (.const d)) : (es : List Expr) →
    AllPure env es → (v v' : Val) →
      (es = [] ∧ evalSeq .const ρ v es = (v, []) ∧ evalSeq κ ρ v' es = (v', [])) ∨
        SameLoads κ ρ (evalSeq .const ρ v es) (evalSeq κ ρ v' es)
  | [], _, v, v' => .inl ⟨rfl, by rw [evalSeq], by rw [evalSeq]⟩
  | e :: es, h, v, v' => by
    rw [AllPure] at h
    rw [evalSeq, evalSeq]
    exact .inr ((sameLoads_expr hκ e h.1).append
      ((sameLoads_seq hκ es h.2 _ _).imp_left And.right))

theorem sameLoads_until (hκ : ∀ d, falsep (κ d) = falsep (.const d)) : (es : List Expr) →
    {b : Bool} → {v v' : Val} → AllPure env es → falsep v' = falsep v →
      ((es = [] ∨ falsep v = b) ∧
        evalUntil .const ρ b v es = (v, []) ∧ evalUntil κ ρ b v' es = (v', [])) ∨
        SameLoads κ ρ (evalUntil .const ρ b v es) (evalUntil κ ρ b v' es)
  | [], _, _, _, _, _ => .inl ⟨.inl rfl, by rw [evalUntil], by rw [evalUntil]⟩
  | e :: es, b, v, v', h, hv => by
    rw [AllPure] at h
    by_cases hb : falsep v = b
    · exact .inl ⟨.inr hb, evalUntil_of_eq hb _, evalUntil_of_eq (hv.trans hb) _⟩
    · have he : SameLoads κ ρ _ _ := sameLoads_expr hκ e h.1
      rw [evalUntil_cons hb, evalUntil_cons (hv ▸ hb)]
      exact .inr (he.append ((sameLoads_until hκ es h.2 (he.falsep_eq hκ)).imp_left And.right))

theorem sameLoads_clauses (hκ : ∀ d, falsep (κ d) = falsep (.const d)) :
    (clauses : List (Expr × List Expr)) → ClausesPure env clauses →
      SameLoads κ ρ (evalCond .const ρ clauses) (evalCond κ ρ clauses)
  | [], _ => by
    rw [evalCond, evalCond]
    exact .single (.const .void)
  | (tst, seq) :: clauses, h => by
    rw [ClausesPure] at h
    have htest : SameLoads κ ρ _ _ := sameLoads_expr hκ tst h.1
    rw [evalCond, evalCond]
    refine htest.append ?_
    rw [htest.falsep_eq hκ]
    split_ifs
    · exact .inr (sameLoads_clauses hκ clauses h.2.2)
    · exact (sameLoads_seq hκ seq h.2.1 _ _).imp_left And.right

end

/-- If the value of the expression is a constant, it is one that comes back as it is. -/
def ValueKept (ρ : Sym → Val) (e : Expr) : Prop :=
  ∀ d, (evalExpr .const ρ e).2.getLast? = some (.const d) → Kept d

/-- A constant is false when the one that comes back is. -/
theorem falsep_ofConst (d : Datum) : falsep (.ofConst d) = falsep (.const d) := by
  rw [Val.ofConst]
  cases d with
  | void | boolean b => rw [emitted]
  | number n => rw [emitted]; rfl
  | character c =>
    rw [emitted]
    cases emittedChar c <;> rfl
  | string s =>
    rw [emitted]
    cases emittedText s <;> rfl
  | symbol s =>
    cases s with
    | nil => rw [emitted]; rfl
    | sym s =>
      rw [emitted]
      cases emittedText s <;> rfl
  | list ds =>
    rw [emitted]
    cases emittedAll ds <;> rfl
  | sExp ds last =>
    cases ds with
    | nil => rw [emitted]; rfl
    | cons d ds =>
      rw [emitted]
      cases emittedAll (d :: ds) with
      | none => rfl
      | some ds' => cases emitted last <;> rfl
  | «abbrev» p d => rw [emitted]; rfl
  | vector ds => rw [emitted]; rfl

theorem Val.emitted_of_ofConst {d d' : Datum} (h : Val.ofConst d = .const d') :
    emitted d = some d' := by
  rw [Val.ofConst] at h
  split at h
  · next hd =>
    cases h
    exact hd
  · cases h

theorem Val.ofConst_eq_iff {d : Datum} : Val.ofConst d = .const d ↔ Kept d :=
  ⟨fun h => (emitted_eq_iff d).mp (Val.emitted_of_ofConst h), Val.ofConst_of_kept⟩

/-- What is loaded is what the expression loads, and the value is its value just when it is kept. -/
theorem evalExpr_ofConst {e : Expr} (h : Pure env e) :
    (evalExpr .ofConst ρ e).2 = (evalExpr .const ρ e).2 ∧
      ((evalExpr .ofConst ρ e).1 = (evalExpr .const ρ e).1 ↔ ValueKept ρ e) := by
  have hloads : SameLoads .ofConst ρ (evalExpr .const ρ e) (evalExpr .ofConst ρ e) :=
    sameLoads_expr falsep_ofConst e h
  obtain ⟨ls, l, hconst, hofConst⟩ := hloads
  rw [ValueKept, hconst, hofConst]
  refine ⟨rfl, ?_⟩
  cases l with
  | const d =>
    simp only [List.getLast?_append, List.getLast?_singleton, Option.some_or, Option.some.injEq,
      Load.const.injEq, forall_eq']
    exact Val.ofConst_eq_iff
  | var x => simp [Load.val]

end

/-- **An expression has code, in tail position or not, and wherever that stands in a linked program
and whatever the registers hold, it runs to its end:** what has been loaded is what the evaluation
loads, in that order, nothing but `reg_value` has changed, and `reg_value` is the value of the
expression just when that is no constant that comes back from the C file as another. -/
theorem executes_code_iff {e : Expr} (hpure : Pure env e) (istail : Bool) (n : ℕ) :
    ∃ c m, compileExprM istail e n = some (c, m) ∧
      ∀ (prog k : List Code), Linked prog env k c → ∀ M : Svm, ∃ v,
        Executes prog ⟨env, c ++ k, M⟩ (evalExpr .const (M.valueOf env) e).2
            ⟨env, k, M.setValue v⟩ ∧
          (v = (evalExpr .const (M.valueOf env) e).1 ↔ ValueKept (M.valueOf env) e) := by
  obtain ⟨c, m, hc⟩ := exists_code e istail n hpure
  refine ⟨c, m, hc, fun prog k hlinked M => ?_⟩
  have hrun := executes_expr e hc hlinked hpure M
  rw [(evalExpr_ofConst hpure).1] at hrun
  exact ⟨_, hrun, (evalExpr_ofConst hpure).2⟩

/-- `(or (and #t #f) (cond (#f) (1)))`. -/
theorem executes_code_iff_or :
    let e : Expr := .or [.and [.selfEval (.boolean true), .selfEval (.boolean false)],
      .cond [(.selfEval (.boolean false), []), (.selfEval (.number 1), [])]]
    ∃ prog, compile [e] = some prog ∧ Executes prog ⟨topEnvt prog, prog, .init⟩
      [.const (.boolean true), .const (.boolean false), .const (.boolean false),
        .const (.number 1)]
      ⟨topEnvt prog, [], Svm.init.setValue (.const (.number 1))⟩ := by
  intro e
  obtain ⟨prog, hprog⟩ : ∃ prog, compile [e] = some prog := ⟨_, rfl⟩
  have hpure : Pure (topEnvt prog) e := by simp [e, Pure, AllPure, ClausesPure, Declarable]
  obtain ⟨c, m, hc, hrun⟩ := executes_code_iff hpure true 0
  have hcode : c = prog := by
    rw [compile_singleton, hc] at hprog
    exact Option.some.inj hprog
  rw [hcode] at hrun
  obtain ⟨v, hexec, hv⟩ := hrun prog [] (linked_compile hprog) .init
  have hkept : ValueKept (Svm.init.valueOf (topEnvt prog)) e := by
    intro d hd
    obtain rfl : Datum.number 1 = d := by
      simpa [e, evalExpr, evalUntil, evalCond, evalSeq, falsep] using hd
    exact ⟨by decide, by decide⟩
  rw [List.append_nil, hv.mpr hkept] at hexec
  exact ⟨prog, hprog, hexec⟩

/-- The constant `1073741824` comes back as `-1073741824`. -/
theorem not_executes_code : ¬∀ (env : CompileTimeEnvt) (e : Expr) (istail : Bool) (n : ℕ),
    Pure env e → ∃ c m, compileExprM istail e n = some (c, m) ∧
      ∀ (prog k : List Code), Linked prog env k c → ∀ M : Svm,
        Executes prog ⟨env, c ++ k, M⟩ (evalExpr .const (M.valueOf env) e).2
          ⟨env, k, M.setValue (evalExpr .const (M.valueOf env) e).1⟩ := by
  intro h
  obtain ⟨c, m, hc, hrun⟩ := h .nullEnvt (.selfEval (.number 1073741824)) false 0 trivial
  obtain ⟨rfl, rfl⟩ := emits_selfEval.mp hc
  obtain ⟨as, has, -⟩ := hrun [] [] ⟨trivial, trivial⟩ .init
  have hreal : Executes [] ⟨.nullEnvt, [.fetchConst (.number 1073741824)] ++ [], .init⟩
      [.const (.number 1073741824)]
      ⟨.nullEnvt, [], Svm.init.setValue (.ofConst (.number 1073741824))⟩ :=
    executes_fetchConst _ _
  obtain ⟨bs, hbs, -⟩ := hreal
  have hstuck : ∀ M a u, ¬Steps [] ⟨.nullEnvt, [], M⟩ a u := by
    rintro M a u ⟨-, hu⟩
    cases hu
  have heq := has.unique_of_stuck (fun s a b t u ht hu => Option.some.inj (ht.2.symm.trans hu.2))
    (hstuck _) (hstuck _) hbs
  have hvalue : Val.ofConst (.number 1073741824) = .const (.number 1073741824) :=
    (congrArg (fun s : State => s.svm.value) heq).symm
  have htagged : Tagged 1073741824 := Val.ofConst_eq_iff.mp hvalue
  exact absurd htagged (by decide)

end SchemeOs.Compiler
