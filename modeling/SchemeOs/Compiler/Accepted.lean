import Mathlib.Tactic.Tauto
import SchemeOs.Compiler.Conversion
import SchemeOs.Compiler.Emits

/-!
# Compiler/Accepted — which expressions become C

The condition on the code, read back on the expressions: `spine` are the variables that the code of
an expression binds outside of blocks, and `Accepted` follows `compileExprM` case by case.
-/

namespace SchemeOs.Compiler

mutual

/-- The variables that the code of the expression binds outside of blocks. -/
def spine : Expr → List Sym
  | .procCall func args => spineSeq args ++ if (builtinSym func).isSome then [] else spine func
  | .sequence exps => spineSeq exps
  | .defvar name exp => spine exp ++ [name]
  | .defun name _ _ => [name]
  | .defun2 name _ _ _ => [name]
  | .assign _ exp => spine exp
  | .branch test _ _ => spine test
  | .cond clauses => spineTests clauses
  | .and exps => spineSeq exps
  | .or exps => spineSeq exps
  | _ => []

/-- `spine`, for a sequence. -/
def spineSeq : List Expr → List Sym
  | [] => []
  | exp :: exps => spine exp ++ spineSeq exps

/-- `spine`, for the tests of the clauses. -/
def spineTests : List (Expr × List Expr) → List Sym
  | [] => []
  | (tst, _) :: clauses => spine tst ++ spineTests clauses

end

mutual

/-- The expression has no `lambda` and no rest parameter, its constants can be declared, a variable
that it reads is bound by some frame, and one that it assigns or defines by the innermost one. -/
def Accepted (env : CompileTimeEnvt) : Expr → Prop
  | .variable x => env.Binds x
  | .quote d => Declarable d
  | .selfEval d => Declarable d
  | .procCall func args =>
    AllAccepted env args ∧ ((builtinSym func).isSome = false → Accepted env func)
  | .sequence exps => AllAccepted env exps
  | .lambda _ _ => False
  | .defvar name exp => name ∈ getBindings env ∧ Accepted env exp
  | .defun name args body => name ≠ .nil ∧ name ∈ getBindings env ∧
    AllAccepted (.envtFrame env (args ++ spineSeq body)) body
  | .defun2 _ _ _ _ => False
  | .assign x exp => x ∈ getBindings env ∧ Accepted env exp
  | .branch test thenExp elseExp =>
    Accepted env test ∧ Accepted env thenExp ∧ Accepted env elseExp
  | .cond clauses => ClausesAccepted env clauses
  | .and exps => AllAccepted env exps
  | .or exps => AllAccepted env exps
  | .case _ _ _ => False
  | .let _ _ => False

/-- `Accepted`, for every expression. -/
def AllAccepted (env : CompileTimeEnvt) : List Expr → Prop
  | [] => True
  | exp :: exps => Accepted env exp ∧ AllAccepted env exps

/-- `Accepted`, for every test and every body. -/
def ClausesAccepted (env : CompileTimeEnvt) : List (Expr × List Expr) → Prop
  | [] => True
  | (tst, seq) :: clauses =>
    Accepted env tst ∧ AllAccepted env seq ∧ ClausesAccepted env clauses

end

/-! ## Scoping

A program may mention a variable that it defines nowhere, and such a program has no C. -/

mutual

/-- The variables that the expression defines, outside of inner procedures. -/
def defined : Expr → List Sym
  | .procCall func args => definedSeq args ++ defined func
  | .sequence exps => definedSeq exps
  | .defvar name exp => defined exp ++ [name]
  | .defun name _ _ => [name]
  | .defun2 name _ _ _ => [name]
  | .assign _ exp => defined exp
  | .branch test thenExp elseExp => defined test ++ defined thenExp ++ defined elseExp
  | .cond clauses => definedClauses clauses
  | .and exps => definedSeq exps
  | .or exps => definedSeq exps
  | _ => []

/-- `defined`, for a sequence. -/
def definedSeq : List Expr → List Sym
  | [] => []
  | exp :: exps => defined exp ++ definedSeq exps

/-- `defined`, for the tests and bodies of clauses. -/
def definedClauses : List (Expr × List Expr) → List Sym
  | [] => []
  | (tst, seq) :: clauses => defined tst ++ definedSeq seq ++ definedClauses clauses

end

mutual

/-- Every variable that the expression reads or assigns is bound by an enclosing parameter list or
define. -/
def Scoped (env : CompileTimeEnvt) : Expr → Prop
  | .variable x => env.Binds x
  | .quote _ => True
  | .selfEval _ => True
  | .procCall func args =>
    AllScoped env args ∧ ((builtinSym func).isSome = false → Scoped env func)
  | .sequence exps => AllScoped env exps
  | .lambda formals body => AllScoped (.envtFrame env (formals.names ++ definedSeq body)) body
  | .defvar _ exp => Scoped env exp
  | .defun _ args body => AllScoped (.envtFrame env (args ++ definedSeq body)) body
  | .defun2 _ args larg body => AllScoped (.envtFrame env (args ++ [larg] ++ definedSeq body)) body
  | .assign x exp => env.Binds x ∧ Scoped env exp
  | .branch test thenExp elseExp => Scoped env test ∧ Scoped env thenExp ∧ Scoped env elseExp
  | .cond clauses => ClausesScoped env clauses
  | .and exps => AllScoped env exps
  | .or exps => AllScoped env exps
  | .case _ _ _ => False
  | .let _ _ => False

/-- `Scoped`, for every expression. -/
def AllScoped (env : CompileTimeEnvt) : List Expr → Prop
  | [] => True
  | exp :: exps => Scoped env exp ∧ AllScoped env exps

/-- `Scoped`, for every test and every body. -/
def ClausesScoped (env : CompileTimeEnvt) : List (Expr × List Expr) → Prop
  | [] => True
  | (tst, seq) :: clauses => Scoped env tst ∧ AllScoped env seq ∧ ClausesScoped env clauses

end

variable {env : CompileTimeEnvt} {istail : Bool} {n m : ℕ} {e : Expr} {es : List Expr}
  {c : List Code} {cs : List (List Code)}

/-! ## Code that is put together -/

@[simp] theorem scanForNewbind_append (c c' : List Code) :
    scanForNewbind (c ++ c') = scanForNewbind c ++ scanForNewbind c' :=
  List.flatMap_append

theorem scanForNewbind_withTail {tail : List Code} (ht : scanForNewbind tail = []) :
    scanForNewbind (withTail tail cs) = scanForNewbind cs.flatten :=
  collect_withTail scanForNewbind_append rfl ht

theorem allConvert_withTail {tail : List Code} (ht : AllConvert env tail) :
    AllConvert env (withTail tail cs) ↔ AllConvert env cs.flatten := by
  induction cs with
  | nil => rfl
  | cons c cs ih =>
    simp only [withTail_cons, List.flatten_cons, allConvert_append, ih, ht, and_true]

theorem scanForNewbind_header (args : List Sym) : scanForNewbind (header args) = [] := by
  rw [header]
  induction args.zipIdx with
  | nil => rfl
  | cons vi rest ih =>
    rw [List.flatMap_cons, scanForNewbind_append, ih]
    rfl

/-- The parameters of a procedure are in its frame. -/
theorem allConvert_header {args : List Sym} (h : ∀ x ∈ args, x ∈ getBindings env) :
    AllConvert env (header args) := by
  have hmem : ∀ vi ∈ args.zipIdx, vi.1 ∈ args := fun vi hvi => by
    obtain ⟨v, i⟩ := vi
    exact List.fst_mem_of_mem_zipIdx hvi
  rw [header]
  generalize args.zipIdx = l at hmem
  induction l with
  | nil => trivial
  | cons vi l ih =>
    exact ⟨trivial, h _ (hmem vi List.mem_cons_self),
      ih fun v hv => hmem v (List.mem_cons_of_mem _ hv)⟩

/-- The code of `and` and `or` without the last test. -/
theorem scanForNewbind_removeLast {t : Code} (ht : scanForNewbind [t] = []) (h : cs ≠ []) :
    scanForNewbind (removeLast (withTail [t] cs)) = scanForNewbind cs.flatten :=
  collect_removeLast scanForNewbind_append rfl ht h

theorem allConvert_removeLast {t : Code} (ht : AllConvert env [t]) (h : cs ≠ []) :
    AllConvert env (removeLast (withTail [t] cs)) ↔ AllConvert env cs.flatten := by
  have htail : AllConvert env (withTail [t] cs) ↔ _ := allConvert_withTail ht
  rw [removeLast_withTail t h, allConvert_append, and_iff_left ht] at htail
  exact htail

theorem builtinSym_ne_nil : builtinSym e ≠ some .nil := by
  intro h
  unfold builtinSym at h
  split at h
  · split_ifs at h
    exact nomatch h
  · exact nomatch h

/-! ## Expressions

The condition on the code of an expression is one on the expression, by induction on it. -/

mutual

/-- **The code and the expression bind the same variables** outside of blocks. -/
theorem scanForNewbind_expr : (e : Expr) → {istail : Bool} → {n m : ℕ} → {c : List Code} →
    compileExprM istail e n = some (c, m) → scanForNewbind c = spine e
  | .variable _, _, _, _, _, h => by
    rw [(emits_variable.mp h).1]
    rfl
  | .quote _, _, _, _, _, h => by
    rw [(emits_quote.mp h).1]
    rfl
  | .selfEval _, _, _, _, _, h => by
    rw [(emits_selfEval.mp h).1]
    rfl
  | .procCall func args, istail, _, _, _, h => by
    cases hs : builtinSym func with
    | some s =>
      obtain ⟨cs, hcs, rfl⟩ := (emits_builtin hs).mp h
      rw [scanForNewbind_append, scanForNewbind_withTail rfl, scanForNewbind_seq args hcs]
      simp [spine, hs, scanForNewbind]
    | none =>
      obtain ⟨cs, k, op, hcs, hop, rfl⟩ := (emits_procCall hs).mp h
      have htail : scanForNewbind [.push, .blankLn] = [] := rfl
      simp only [scanForNewbind_append, scanForNewbind_withTail htail,
        scanForNewbind_seq args hcs, scanForNewbind_expr func hop]
      cases istail <;> simp [spine, hs, scanForNewbind]
  | .sequence es, _, _, _, _, h => by
    obtain ⟨cs, hcs, rfl⟩ := emits_sequence.mp h
    exact scanForNewbind_seq es hcs
  | .lambda _ _, _, _, _, _, h => by
    obtain ⟨cs, -, rfl⟩ := emits_lambda.mp h
    rfl
  | .defvar name e, _, _, _, _, h => by
    obtain ⟨c, hc, rfl⟩ := emits_defvar.mp h
    rw [scanForNewbind_append, scanForNewbind_expr e hc]
    rfl
  | .defun _ _ _, _, _, _, _, h => by
    obtain ⟨cs, -, rfl⟩ := emits_defun.mp h
    rfl
  | .defun2 _ _ _ _, _, _, _, _, h => by
    obtain ⟨cs, -, rfl⟩ := emits_defun2.mp h
    rfl
  | .assign _ e, _, _, _, _, h => by
    obtain ⟨c, hc, rfl⟩ := emits_assign.mp h
    rw [scanForNewbind_append, scanForNewbind_expr e hc]
    simp [scanForNewbind, spine]
  | .branch test _ _, _, _, _, _, h => by
    obtain ⟨cTest, _, _, _, _, hTest, -, -, rfl⟩ := emits_branch.mp h
    rw [scanForNewbind_append, scanForNewbind_expr test hTest]
    simp [scanForNewbind, spine]
  | .cond clauses, _, _, _, _, h => by
    obtain ⟨c', hc', rfl⟩ := emits_cond.mp h
    rw [scanForNewbind_append, scanForNewbind_clauses clauses hc']
    simp [scanForNewbind, spine]
  | .and [], _, _, _, _, h => by
    rw [(emits_and_nil.mp h).1]
    rfl
  | .and (e :: es), _, _, _, _, h => by
    obtain ⟨cs, k, hcs, -, rfl⟩ := emits_and.mp h
    rw [scanForNewbind_append, scanForNewbind_removeLast rfl (ne_nil_of_compileSeq hcs),
      scanForNewbind_seq (e :: es) hcs]
    simp [scanForNewbind, spine]
  | .or [], _, _, _, _, h => by
    rw [(emits_or_nil.mp h).1]
    rfl
  | .or (e :: es), _, _, _, _, h => by
    obtain ⟨cs, k, hcs, -, rfl⟩ := emits_or.mp h
    rw [scanForNewbind_append, scanForNewbind_removeLast rfl (ne_nil_of_compileSeq hcs),
      scanForNewbind_seq (e :: es) hcs]
    simp [scanForNewbind, spine]

theorem scanForNewbind_seq : (es : List Expr) → {istail : Bool} → {n m : ℕ} →
    {cs : List (List Code)} → compileSeq istail es n = some (cs, m) →
      scanForNewbind cs.flatten = spineSeq es
  | [], _, _, _, _, h => by
    rw [(emits_seq_nil.mp h).1]
    rfl
  | e :: es, _, _, _, _, h => by
    obtain ⟨c, _, cs, hc, hcs, rfl⟩ := emits_seq_cons.mp h
    rw [List.flatten_cons, scanForNewbind_append, scanForNewbind_expr e hc,
      scanForNewbind_seq es hcs]
    rfl

theorem scanForNewbind_clauses : (clauses : List (Expr × List Expr)) → {istail : Bool} →
    {l n m : ℕ} → {c : List Code} → compileClauses istail l clauses n = some (c, m) →
      scanForNewbind c = spineTests clauses
  | [], _, _, _, _, _, h => by
    rw [(emits_clauses_nil.mp h).1]
    rfl
  | (tst, _) :: clauses, _, _, _, _, _, h => by
    obtain ⟨t, _, _, _, rest, ht, -, hrest, rfl⟩ := emits_clauses_cons.mp h
    rw [scanForNewbind_append, scanForNewbind_append, scanForNewbind_expr tst ht,
      scanForNewbind_clauses clauses hrest]
    simp [scanForNewbind, spineTests]

end

mutual

/-- **The code is converted when the expression is accepted**, and only then. -/
theorem allConvert_expr : (e : Expr) → {env : CompileTimeEnvt} → {istail : Bool} → {n m : ℕ} →
    {c : List Code} → compileExprM istail e n = some (c, m) → (AllConvert env c ↔ Accepted env e)
  | .variable _, _, _, _, _, _, h => by
    rw [(emits_variable.mp h).1]
    exact and_iff_left trivial
  | .quote _, _, _, _, _, _, h => by
    rw [(emits_quote.mp h).1]
    exact and_iff_left trivial
  | .selfEval _, _, _, _, _, _, h => by
    rw [(emits_selfEval.mp h).1]
    exact and_iff_left trivial
  | .procCall func args, env, istail, _, _, _, h => by
    have htail : AllConvert env [.push, .blankLn] := ⟨trivial, trivial, trivial⟩
    cases hs : builtinSym func with
    | some s =>
      obtain ⟨cs, hcs, rfl⟩ := (emits_builtin hs).mp h
      have hne : s ≠ .nil := by
        rintro rfl
        exact builtinSym_ne_nil hs
      rw [allConvert_append, allConvert_withTail htail, allConvert_seq args hcs, Accepted]
      simp [hs, AllConvert, Converts, hne]
    | none =>
      obtain ⟨cs, k, op, hcs, hop, rfl⟩ := (emits_procCall hs).mp h
      simp only [allConvert_append, allConvert_withTail htail, allConvert_seq args hcs,
        allConvert_expr func hop]
      cases istail <;> simp [Accepted, hs, AllConvert, Converts]
  | .sequence es, _, _, _, _, _, h => by
    obtain ⟨cs, hcs, rfl⟩ := emits_sequence.mp h
    exact allConvert_seq es hcs
  | .lambda formals _, _, _, _, _, _, h => by
    obtain ⟨cs, -, rfl⟩ := emits_lambda.mp h
    cases formals <;> simp [AllConvert, Converts, Accepted]
  | .defvar name e, _, _, _, _, _, h => by
    obtain ⟨c, hc, rfl⟩ := emits_defvar.mp h
    rw [allConvert_append, allConvert_expr e hc, Accepted]
    simp [AllConvert, Converts, and_comm]
  | .defun name params es, env, _, _, _, _, h => by
    obtain ⟨cs, hcs, rfl⟩ := emits_defun.mp h
    have hbinds : scanForNewbind (header params ++ cs.flatten ++ [.leaveProc]) = spineSeq es := by
      rw [scanForNewbind_append, scanForNewbind_append, scanForNewbind_header,
        scanForNewbind_seq es hcs]
      simp [scanForNewbind]
    have hheader : AllConvert (.envtFrame env (params ++ spineSeq es)) (header params) :=
      allConvert_header fun x hx => List.mem_append_left _ hx
    simp only [AllConvert, Converts, hbinds, allConvert_append, hheader, allConvert_seq es hcs,
      Accepted]
    tauto
  | .defun2 _ _ _ _, _, _, _, _, _, h => by
    obtain ⟨cs, -, rfl⟩ := emits_defun2.mp h
    simp [AllConvert, Converts, Accepted]
  | .assign _ e, _, _, _, _, _, h => by
    obtain ⟨c, hc, rfl⟩ := emits_assign.mp h
    rw [allConvert_append, allConvert_expr e hc, Accepted]
    simp [AllConvert, Converts, and_comm]
  | .branch test thenExp elseExp, _, _, _, _, _, h => by
    obtain ⟨cTest, _, cThen, _, cElse, hTest, hThen, hElse, rfl⟩ := emits_branch.mp h
    rw [allConvert_append, allConvert_expr test hTest, AllConvert, Converts,
      allConvert_expr thenExp hThen, allConvert_expr elseExp hElse, Accepted, AllConvert, and_true]
  | .cond clauses, _, _, _, _, _, h => by
    obtain ⟨c', hc', rfl⟩ := emits_cond.mp h
    rw [allConvert_append, allConvert_clauses clauses hc', Accepted]
    simp [AllConvert, Converts, Declarable]
  | .and [], _, _, _, _, _, h => by
    rw [(emits_and_nil.mp h).1]
    simp [AllConvert, Converts, Declarable, Accepted, AllAccepted]
  | .and (e :: es), _, _, _, _, _, h => by
    obtain ⟨cs, k, hcs, -, rfl⟩ := emits_and.mp h
    rw [allConvert_append, allConvert_removeLast (by simp [AllConvert, Converts])
      (ne_nil_of_compileSeq hcs), allConvert_seq (e :: es) hcs, Accepted]
    simp [AllConvert, Converts]
  | .or [], _, _, _, _, _, h => by
    rw [(emits_or_nil.mp h).1]
    simp [AllConvert, Converts, Declarable, Accepted, AllAccepted]
  | .or (e :: es), _, _, _, _, _, h => by
    obtain ⟨cs, k, hcs, -, rfl⟩ := emits_or.mp h
    rw [allConvert_append, allConvert_removeLast (by simp [AllConvert, Converts])
      (ne_nil_of_compileSeq hcs), allConvert_seq (e :: es) hcs, Accepted]
    simp [AllConvert, Converts]

theorem allConvert_seq : (es : List Expr) → {env : CompileTimeEnvt} → {istail : Bool} →
    {n m : ℕ} → {cs : List (List Code)} → compileSeq istail es n = some (cs, m) →
      (AllConvert env cs.flatten ↔ AllAccepted env es)
  | [], _, _, _, _, _, h => by
    rw [(emits_seq_nil.mp h).1]
    rfl
  | e :: es, _, _, _, _, _, h => by
    obtain ⟨c, _, cs, hc, hcs, rfl⟩ := emits_seq_cons.mp h
    rw [List.flatten_cons, allConvert_append, allConvert_expr e hc, allConvert_seq es hcs]
    rfl

theorem allConvert_clauses : (clauses : List (Expr × List Expr)) → {env : CompileTimeEnvt} →
    {istail : Bool} → {l n m : ℕ} → {c : List Code} →
      compileClauses istail l clauses n = some (c, m) →
      (AllConvert env c ↔ ClausesAccepted env clauses)
  | [], _, _, _, _, _, _, h => by
    rw [(emits_clauses_nil.mp h).1]
    rfl
  | (tst, seq) :: clauses, _, _, _, _, _, _, h => by
    obtain ⟨t, _, cs, _, rest, ht, hcs, hrest, rfl⟩ := emits_clauses_cons.mp h
    rw [allConvert_append, allConvert_append, allConvert_expr tst ht,
      allConvert_clauses clauses hrest, ClausesAccepted, AllConvert, Converts, allConvert_append,
      allConvert_seq seq hcs]
    simp [AllConvert, Converts, and_assoc]

end

/-- **Which programs become C**: those that are accepted in the frame of what they define. -/
theorem exists_convert_iff_accepted {exps : List Expr} {code : List Code}
    (h : compile exps = some code) :
    (∃ fuel, (convert fuel code).isSome) ↔
      AllAccepted (.envtFrame .nullEnvt (spineSeq exps)) exps := by
  obtain ⟨⟨code, m⟩, hcode, rfl⟩ := Option.map_eq_some_iff.mp h
  obtain ⟨cs, hcs, rfl⟩ := emits_sequence.mp hcode
  rw [exists_convert_iff, topEnvt, allConvert_seq exps hcs, scanForNewbind_seq exps hcs]

/-- `(define x '(1 2)) x`. -/
theorem exists_convert_iff_accepted_one :
    ∃ fuel, (convert fuel [.fetchConst (.list [.number 1, .number 2]), .newBind (.sym ['x']), .nop,
      .lookupVar (.sym ['x'])]).isSome :=
  (exists_convert_iff_accepted
    (show compile [.defvar (.sym ['x']) (.quote (.list [.number 1, .number 2])),
      .variable (.sym ['x'])] = some _ from rfl)).mpr
    ⟨⟨List.mem_singleton_self _, trivial, trivial, trivial⟩, .inl (List.mem_singleton_self _),
      trivial⟩

/-- **The gap of the converter**: it has no case for the closure of a `lambda`. -/
theorem not_convert_of_scoped : ¬ ∀ (exps : List Expr) (code : List Code),
    compile exps = some code → AllScoped (.envtFrame .nullEnvt (definedSeq exps)) exps →
      ∃ fuel, (convert fuel code).isSome := by
  intro hall
  obtain ⟨fuel, hfuel⟩ := hall [.lambda (.args []) [.selfEval (.boolean true)]] _ rfl
    ⟨⟨trivial, trivial⟩, trivial⟩
  exact Bool.false_ne_true hfuel

end SchemeOs.Compiler
