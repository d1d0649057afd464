import SchemeOs.Compiler.Values

/-!
# Compiler/Operands — the order of operands

The parser's rule for operands is left-recursive and puts each in front of those before it, so the
last operand is compiled and pushed first.  The stack grows downwards: the first operand ends up on
top, where `AccStack 0` reads it.
-/

namespace SchemeOs.Compiler

variable {prog c k : List Code} {env benv : CompileTimeEnvt} {n m : ℕ} {istail : Bool} {f x y : Sym}
  {xs : List Sym} {operands args : List Expr} {vs : List Val} {M M' : Svm} {cs : List (List Code)}

/-! ## Calls -/

/-- `Operands`: the rule `Operands Expr0` is `$2 : $1`. -/
def parseOperands (operands : List Expr) : List Expr := operands.foldl (fun es e => e :: es) []

theorem parseOperands_eq (operands : List Expr) : parseOperands operands = operands.reverse := by
  rw [parseOperands, List.foldl_flip_cons_eq_append', List.append_nil]

/-- The code in front of the operands of a call of `f`. -/
def beforeOperands (istail : Bool) (f : Sym) (n : ℕ) : List Code :=
  match builtinSym (.variable f) with
  | some _ => []
  | none => if istail then [] else [.pushCont n]

/-- The code behind the operands. -/
def afterOperands (istail : Bool) (f : Sym) (n argc : ℕ) : List Code :=
  match builtinSym (.variable f) with
  | some s => [.callBuiltin s argc, .moveSp argc, .blankLn]
  | none => [.lookupVar f, .apply] ++ (if istail then [] else [.label n]) ++ [.blankLn]

/-- A call of a variable. -/
theorem emits_call : compileExprM istail (.procCall (.variable f) args) n = some (c, m) ↔
    ∃ cs, compileSeq false args (if istail then n else n + 1) = some (cs, m) ∧
      c = beforeOperands istail f n ++ withTail [.push, .blankLn] cs ++
        afterOperands istail f n args.length := by
  unfold beforeOperands afterOperands
  cases hs : builtinSym (.variable f) with
  | some s => exact emits_builtin hs
  | none =>
    refine (emits_procCall hs).trans ⟨?_, ?_⟩
    · rintro ⟨cs, k, op, hcs, hop, rfl⟩
      obtain ⟨rfl, rfl⟩ := emits_variable.mp hop
      exact ⟨cs, hcs, by simp⟩
    · rintro ⟨cs, hcs, rfl⟩
      exact ⟨cs, m, [.lookupVar f], hcs, emits_variable.mpr ⟨rfl, rfl⟩, by simp⟩

/-- The registers in which the operands of a call of `f` are evaluated. -/
def Svm.begin (istail : Bool) (f : Sym) (n : ℕ) (M : Svm) : Svm :=
  match builtinSym (.variable f) with
  | some _ => M
  | none => if istail then M else M.pushContinuation (some n)

/-! ## Operands

What an operand has to do: leave its value, and everything else as it was. -/

/-- The code `c`, followed by `k`, has the value `v` and leaves the stack as it was. -/
structure Keeps (prog : List Code) (env : CompileTimeEnvt) (c k : List Code) (M : Svm) (v : Val)
    (M' : Svm) : Prop where
  run : ∃ as, Runs (Steps prog) ⟨env, c ++ k, M⟩ as ⟨env, k, M'⟩
  value_eq : M'.value = v
  top_eq : M'.stackTop = M.stackTop
  base_eq : M'.stackBase = M.stackBase
  cells : ∀ j, M.stackTop ≤ j → M'.stack j = M.stack j

/-- Operands are evaluated one after the other, as they have been compiled, and pushed. -/
inductive Pushes (prog : List Code) (env : CompileTimeEnvt) (k : List Code) :
    List (List Code) → List Val → Svm → Svm → Prop where
  | nil {M : Svm} : Pushes prog env k [] [] M M
  | cons {c : List Code} {cs : List (List Code)} {v : Val} {vs : List Val} {M M₁ M' : Svm} :
      Keeps prog env c ([.push, .blankLn] ++ (withTail [.push, .blankLn] cs ++ k)) M v M₁ →
      Pushes prog env k cs vs M₁.push M' → Pushes prog env k (c :: cs) (v :: vs) M M'

/-- The operands of a call of `f` have the values `vs`, in the order of the source, and leave the
stack as it was. -/
def OperandsKeep (prog : List Code) (env : CompileTimeEnvt) (istail : Bool) (f : Sym) (n : ℕ)
    (operands : List Expr) (k : List Code) (vs : List Val) (M M' : Svm) : Prop :=
  ∃ cs m, compileSeq false (parseOperands operands) (if istail then n else n + 1) = some (cs, m) ∧
    Pushes prog env (afterOperands istail f n operands.length ++ k) cs vs.reverse
      (M.begin istail f n) M'

section Push

variable (M : Svm)

@[simp] theorem Svm.push_stackTop : M.push.stackTop = M.stackTop - 1 := rfl

theorem Svm.push_stack_top : M.push.stack (M.stackTop - 1) = M.value := Function.update_self ..

theorem Svm.push_stack_of_le {j : ℤ} (hj : M.stackTop ≤ j) : M.push.stack j = M.stack j :=
  Function.update_of_ne (by omega) ..

end Push

namespace Pushes

theorem runs (h : Pushes prog env k cs vs M M') : ∃ as, Runs (Steps prog)
    ⟨env, withTail [.push, .blankLn] cs ++ k, M⟩ as ⟨env, k, M'⟩ := by
  induction h with
  | nil => exact ⟨[], .nil _⟩
  | @cons c cs v vs M M₁ M' hc _ ih =>
    obtain ⟨as, has⟩ := hc.run
    obtain ⟨bs, hbs⟩ := ih
    rw [withTail_cons, List.append_assoc, List.append_assoc]
    exact ⟨_, has.append (.cons ⟨rfl, rfl⟩ (.cons ⟨rfl, rfl⟩ hbs))⟩

theorem length_eq (h : Pushes prog env k cs vs M M') : vs.length = cs.length := by
  induction h with
  | nil => rfl
  | cons _ _ ih => rw [List.length_cons, List.length_cons, ih]

/-- **What has been pushed**: the last value is on top, and the cells above are as they were. -/
theorem spec (h : Pushes prog env k cs vs M M') :
    M'.stackTop = M.stackTop - vs.length ∧ M'.stackBase = M.stackBase ∧
      (∀ j, M.stackTop ≤ j → M'.stack j = M.stack j) ∧
      ∀ (i : ℕ) v, vs.reverse[i]? = some v → M'.stack (M'.stackTop + i) = v := by
  induction h with
  | nil => exact ⟨(Int.sub_zero _).symm, rfl, fun _ _ => rfl, nofun⟩
  | @cons c cs v vs M M₁ M' hc _ ih =>
    obtain ⟨htop, hbase, hcells, hvals⟩ := ih
    rw [Svm.push_stackTop, hc.top_eq] at htop hcells
    refine ⟨?_, hbase.trans hc.base_eq, fun j hj => ?_, fun i w hi => ?_⟩
    · rw [htop, List.length_cons]
      omega
    · rw [hcells j (by omega), Svm.push_stack_of_le _ (by rwa [hc.top_eq]), hc.cells j hj]
    · rw [List.reverse_cons] at hi
      by_cases hlt : i < vs.length
      · rw [List.getElem?_append_left (by rwa [List.length_reverse])] at hi
        exact hvals i w hi
      · rw [List.getElem?_append_right (by rw [List.length_reverse]; omega), List.length_reverse,
          List.getElem?_singleton] at hi
        split_ifs at hi with hzero
        obtain rfl := Option.some.inj hi
        have hpos : M'.stackTop + i = M.stackTop - 1 := by omega
        rw [hpos, hcells _ (Int.le_refl _), ← hc.top_eq, Svm.push_stack_top, hc.value_eq]

end Pushes

/-! ## The entry of a procedure

The header of the body takes the operands off the stack, each into the slot of its formal. -/

/-- The state after `n` steps. -/
def steps (prog : List Code) : ℕ → State → Option State
  | 0, s => some s
  | n + 1, s => (step prog s).bind (steps prog n)

theorem idxOf?_inj {binds : List Sym} {i : ℕ} (hx : binds.idxOf? x = some i)
    (hy : binds.idxOf? y = some i) : x = y := by
  obtain ⟨_, hxi, -⟩ := List.idxOf?_eq_some_iff.mp hx
  obtain ⟨_, hyi, -⟩ := List.idxOf?_eq_some_iff.mp hy
  exact hxi.symm.trans hyi

/-- A variable of the innermost frame. -/
theorem valueOf_of_idxOf? {outer : CompileTimeEnvt} {binds : List Sym} {i : ℕ}
    (hx : binds.idxOf? x = some i) (M : Svm) :
    M.valueOf (.envtFrame outer binds) x = M.bindings M.envt i := by
  rw [Svm.valueOf, lookupvar, lookupvar', hx]
  rfl

/-- `ReBind` changes the value of the variable that it binds. -/
theorem valueOf_bindVar {outer : CompileTimeEnvt} {binds : List Sym} {i : ℕ}
    (hx : binds.idxOf? x = some i) (hy : y ∈ binds) (M : Svm) :
    (M.bindVar i).valueOf (.envtFrame outer binds) y =
      if y = x then M.value else M.valueOf (.envtFrame outer binds) y := by
  obtain ⟨j, hj⟩ := Option.isSome_iff_exists.mp (List.isSome_idxOf?.mpr hy)
  rw [valueOf_of_idxOf? hj, valueOf_of_idxOf? hj]
  change Function.update M.bindings M.envt (Function.update (M.bindings M.envt) i M.value)
    M.envt j = _
  rw [Function.update_self]
  split_ifs with hyx
  · subst hyx
    obtain rfl := Option.some.inj (hx.symm.trans hj)
    exact Function.update_self ..
  · exact Function.update_of_ne (fun hij => hyx (idxOf?_inj (hij ▸ hj) hx)) ..

/-- The registers that bind a formal to the cell `i` of the stack. -/
def Svm.bindFormal (M : Svm) (i offset : ℕ) : Svm :=
  Svm.bindVar { M with value := M.stack (M.stackTop + i) } offset

/-- `AccStack i` and `ReBind`. -/
theorem steps_formal {outer : CompileTimeEnvt} {binds : List Sym} {i offset : ℕ}
    (hx : binds.idxOf? x = some offset) (hi : M.stackTop + i < M.stackBase) (n : ℕ) :
    steps prog (n + 2) ⟨.envtFrame outer binds, .accStack i :: .reBind x :: k, M⟩ =
      steps prog n ⟨.envtFrame outer binds, k, M.bindFormal i offset⟩ := by
  have hacc : step prog ⟨.envtFrame outer binds, .accStack i :: .reBind x :: k, M⟩ =
      some ⟨.envtFrame outer binds, .reBind x :: k, { M with value := M.stack (M.stackTop + i) }⟩ :=
    if_neg (Int.not_le.mpr hi)
  have hbind (M : Svm) : step prog ⟨.envtFrame outer binds, .reBind x :: k, M⟩ =
      some ⟨.envtFrame outer binds, k, M.bindVar offset⟩ := by
    change Option.map _ ((binds.idxOf? x).map _) = _
    rw [hx]
    rfl
  rw [steps, hacc, Option.bind_some, steps, hbind, Option.bind_some]
  rfl

/-- **The entry code** gives formals what is in the cells of the stack, and no other variable
another value. -/
theorem steps_header {outer : CompileTimeEnvt} {binds : List Sym} (hxs : ∀ x ∈ xs, x ∈ binds)
    (j : ℕ) (hbase : M.stackTop + (j + xs.length : ℕ) ≤ M.stackBase) :
    ∃ M', steps prog (2 * xs.length) ⟨.envtFrame outer binds,
        (xs.zipIdx j).flatMap (fun vi => [.accStack vi.2, .reBind vi.1]) ++ k, M⟩ =
          some ⟨.envtFrame outer binds, k, M'⟩ ∧
      (∀ y ∈ binds, y ∉ xs →
        M'.valueOf (.envtFrame outer binds) y = M.valueOf (.envtFrame outer binds) y) ∧
      ∀ (i : ℕ) x, xs[i]? = some x → x ∉ xs.drop (i + 1) →
        M'.valueOf (.envtFrame outer binds) x = M.stack (M.stackTop + (j + i : ℕ)) := by
  induction xs generalizing j M with
  | nil => exact ⟨M, rfl, fun _ _ _ => rfl, nofun⟩
  | cons x xs ih =>
    have hx : x ∈ binds := hxs x List.mem_cons_self
    obtain ⟨o, ho⟩ := Option.isSome_iff_exists.mp (List.isSome_idxOf?.mpr hx)
    rw [List.length_cons] at hbase
    obtain ⟨M', hsteps, hother, hcells⟩ := ih (M := M.bindFormal j o)
      (fun y hy => hxs y (List.mem_cons_of_mem _ hy)) (j + 1)
      (by change M.stackTop + _ ≤ M.stackBase; omega)
    have hbind {y : Sym} (hy : y ∈ binds) :
        (M.bindFormal j o).valueOf (.envtFrame outer binds) y = if y = x then
          M.stack (M.stackTop + j) else M.valueOf (.envtFrame outer binds) y :=
      valueOf_bindVar ho hy _
    refine ⟨M', ?_, fun y hy hnot => ?_, fun i y hi hnot => ?_⟩
    · exact (steps_formal ho (by omega) _).trans hsteps
    · rw [List.mem_cons, not_or] at hnot
      rw [hother y hy hnot.2, hbind hy, if_neg hnot.1]
    · cases i with
      | zero =>
        obtain rfl := Option.some.inj hi
        rw [hother x hx hnot, hbind hx, if_pos rfl]
        rfl
      | succ i =>
        rw [hcells i y hi hnot]
        change M.stack (M.stackTop + _) = _
        congr 2
        omega

/-! ## The order of the operands -/

/-- The templates of the closures that `(define (f x ...) body)` makes. -/
inductive DefinedBy (f : Sym) (xs : List Sym) (es : List Expr) : Template → Prop where
  | defun {istail : Bool} {n m : ℕ} {c code : List Code} {env : CompileTimeEnvt} :
      compileExprM istail (.defun f xs es) n = some (.makeClosure f (.args xs) code :: c, m) →
      DefinedBy f xs es ⟨bodyEnvt env (.args xs) code, code⟩

theorem DefinedBy.exists_body {es : List Expr} {t : Template} (h : DefinedBy f xs es t) :
    ∃ outer body, t = ⟨.envtFrame outer (xs ++ scanForNewbind t.code), header xs ++ body⟩ := by
  obtain ⟨hc⟩ := h
  obtain ⟨cs, -, hcode⟩ := emits_defun.mp hc
  obtain ⟨-, -, rfl⟩ := Code.makeClosure.inj (List.cons.inj hcode).1
  exact ⟨_, cs.flatten ++ [.leaveProc], by rw [bodyEnvt, ← List.append_assoc]; rfl⟩

theorem begin_runs (M : Svm) : ∃ as, Runs (Steps prog) ⟨env, beforeOperands istail f n ++ k, M⟩ as
    ⟨env, k, M.begin istail f n⟩ := by
  unfold beforeOperands Svm.begin
  cases builtinSym (.variable f) with
  | some s => exact ⟨[], .nil _⟩
  | none =>
    cases istail with
    | true => exact ⟨[], .nil _⟩
    | false => exact ⟨_, .single ⟨rfl, rfl⟩⟩

theorem begin_stack (M : Svm) : (M.begin istail f n).stackTop = M.stackTop ∧
    (M.begin istail f n).stackBase = M.stackBase := by
  unfold Svm.begin
  cases builtinSym (.variable f) with
  | some s => exact ⟨rfl, rfl⟩
  | none => cases istail <;> exact ⟨rfl, rfl⟩

/-- A call enters the procedure that its variable names. -/
theorem steps_enter {t : Template} {envt : ℕ} (hs : builtinSym (.variable f) = none)
    (hf : env.Binds f) (hv : M.valueOf env f = .closure t envt) (argc : ℕ) (j : ℕ) :
    steps prog (2 + j) ⟨env, afterOperands istail f n argc ++ k, M⟩ =
      steps prog j ⟨t.env, t.code,
        { M with value := .closure t envt, template := some t, envt := envt }⟩ := by
  have hsome : (lookupvar' 0 f env).isSome := lookupvar'_isSome.mpr hf
  obtain ⟨a, ha⟩ := Option.isSome_iff_exists.mp hsome
  have hlook (k : List Code) : step prog ⟨env, .lookupVar f :: k, M⟩ =
      some ⟨env, k, { M with value := .closure t envt }⟩ := by
    rw [← hv]
    change Option.map _ (lookupvar' 0 f env) = _
    rw [Svm.valueOf, lookupvar, ha]
    rfl
  unfold afterOperands
  rw [hs, Nat.add_comm, steps]
  change (step prog ⟨env, .lookupVar f :: _, M⟩).bind _ = _
  rw [hlook, Option.bind_some]
  rfl

/-- **The operands arrive in order**: the first is on top of the stack when a builtin is called, and
the entry code of a procedure gives each formal the value of its operand, unless a later formal has
the same name. -/
theorem operands_in_order (hcall : compileExprM istail
      (.procCall (.variable f) (parseOperands operands)) n = some (c, m))
    (hkeep : OperandsKeep prog env istail f n operands k vs M M')
    (hstack : M.stackTop ≤ M.stackBase) :
    (∃ as, Runs (Steps prog) ⟨env, c ++ k, M⟩ as
      ⟨env, afterOperands istail f n operands.length ++ k, M'⟩) ∧
    (∀ (i : ℕ) v, vs[i]? = some v → M'.stack (M'.stackTop + i) = v) ∧
    ∀ xs es t envt, builtinSym (.variable f) = none → env.Binds f →
      M'.valueOf env f = .closure t envt → DefinedBy f xs es t → xs.length = operands.length →
      ∃ body M'', t.code = header xs ++ body ∧
        steps prog (2 + 2 * xs.length)
          ⟨env, afterOperands istail f n operands.length ++ k, M'⟩ = some ⟨t.env, body, M''⟩ ∧
        ∀ (i : ℕ) x v, xs[i]? = some x → vs[i]? = some v → x ∉ xs.drop (i + 1) →
          M''.valueOf t.env x = v := by
  obtain ⟨cs, hcs, rfl⟩ := emits_call.mp hcall
  obtain ⟨cs', m', hcs', hpushes⟩ := hkeep
  obtain ⟨rfl, rfl⟩ := Prod.mk.inj (Option.some.inj (hcs.symm.trans hcs'))
  have hlength : vs.length = operands.length := by
    have := hpushes.length_eq
    rw [List.length_reverse, compileSeq_length _ hcs, parseOperands_eq, List.length_reverse] at this
    exact this
  obtain ⟨htop, hbase, -, hvals⟩ := hpushes.spec
  rw [List.reverse_reverse] at hvals
  rw [List.length_reverse, begin_stack M |>.1] at htop
  rw [begin_stack M |>.2] at hbase
  refine ⟨?_, hvals, fun xs es t envt hs hf hv ht hxs => ?_⟩
  · obtain ⟨as, has⟩ := begin_runs M
    obtain ⟨bs, hbs⟩ := hpushes.runs
    rw [parseOperands_eq, List.length_reverse, List.append_assoc, List.append_assoc]
    exact ⟨_, has.append hbs⟩
  · obtain ⟨outer, body, hbody⟩ := ht.exists_body
    have henv : t.env = .envtFrame outer (xs ++ scanForNewbind t.code) :=
      congrArg Template.env hbody
    have hcode : t.code = header xs ++ body := congrArg Template.code hbody
    have hroom : M'.stackTop + (0 + xs.length : ℕ) ≤ M'.stackBase := by omega
    obtain ⟨M'', hsteps, -, hcells⟩ := @steps_header prog body xs
      { M' with value := .closure t envt, template := some t, envt := envt } outer
      (xs ++ scanForNewbind t.code) (fun x hx => List.mem_append_left _ hx) 0 hroom
    refine ⟨body, M'', hcode, ?_, fun i x v hx hv hnot => ?_⟩
    · rw [steps_enter hs hf hv, henv, show steps prog (2 * xs.length) ⟨_, t.code, _⟩ = _ from
        congrArg (fun code => steps prog (2 * xs.length) ⟨_, code, _⟩) hcode]
      exact hsteps
    · rw [henv, hcells i x hx hnot, Nat.zero_add]
      exact hvals i v hv

/-! ## Two operands -/

theorem keeps_fetchConst {d : Datum} (hd : Kept d) (k : List Code) (M : Svm) :
    Keeps prog env [.fetchConst d] k M (.const d) (M.setValue (.const d)) := by
  have hstep : step prog ⟨env, [.fetchConst d] ++ k, M⟩ = some ⟨env, k, M.setValue (.const d)⟩ := by
    rw [← Val.ofConst_of_kept hd]
    rfl
  exact ⟨⟨_, .single ⟨rfl, hstep⟩⟩, rfl, rfl, rfl, fun _ _ => rfl⟩

/-- The code of `(define (f x y) x)`, for a symbol `y`. -/
def firstOf (y : Sym) : List Code :=
  header [.sym ['x'], y] ++ [.lookupVar (.sym ['x']), .leaveProc]

/-- The code of `(f 1 2)`. -/
def callFirst : List Code :=
  [.fetchConst (.number 2), .push, .blankLn, .fetchConst (.number 1), .push, .blankLn,
    .lookupVar (.sym ['f']), .apply, .blankLn]

/-- `(define (f x y) x) (f 1 2)` -/
def firstProg (y : Sym) : List Code :=
  [.makeClosure (.sym ['f']) (.args [.sym ['x'], y]) (firstOf y), .newBind (.sym ['f']), .nop] ++
    callFirst

def firstTemplate (y : Sym) : Template :=
  ⟨bodyEnvt (topEnvt (firstProg y)) (.args [.sym ['x'], y]) (firstOf y), firstOf y⟩

/-- The registers when `f` has been defined. -/
def firstSvm (y : Sym) : Svm :=
  Svm.bindVar { Svm.init.pushContinuation none with
    value := .closure (firstTemplate y) globalEnvironment } 0

/-- The registers when both operands have been pushed. -/
def firstPushed (y : Sym) : Svm :=
  (((firstSvm y).setValue (.const (.number 2))).push.setValue (.const (.number 1))).push

theorem operandsKeep_first (y : Sym) : OperandsKeep (firstProg y) (topEnvt (firstProg y)) true
    (.sym ['f']) 0 [.selfEval (.number 1), .selfEval (.number 2)] []
    [.const (.number 1), .const (.number 2)] (firstSvm y) (firstPushed y) :=
  ⟨[[.fetchConst (.number 2)], [.fetchConst (.number 1)]], 0, rfl,
    .cons (keeps_fetchConst (d := .number 2) (show Tagged 2 by decide) _ _)
      (.cons (keeps_fetchConst (d := .number 1) (show Tagged 1 by decide) _ _) .nil)⟩

theorem definedBy_first (y : Sym) : DefinedBy (.sym ['f']) [.sym ['x'], y]
    [.variable (.sym ['x'])] (firstTemplate y) :=
  @DefinedBy.defun _ _ _ false 0 0 [.newBind (.sym ['f']), .nop] _ _ rfl

/-- With two different formals. -/
theorem operands_in_order_first : ∃ body M'',
    (firstTemplate (.sym ['y'])).code = header [.sym ['x'], .sym ['y']] ++ body ∧
      steps (firstProg (.sym ['y'])) 6 ⟨topEnvt (firstProg (.sym ['y'])),
        afterOperands true (.sym ['f']) 0 2 ++ [], firstPushed (.sym ['y'])⟩ =
          some ⟨(firstTemplate (.sym ['y'])).env, body, M''⟩ ∧
      M''.valueOf (firstTemplate (.sym ['y'])).env (.sym ['x']) = .const (.number 1) ∧
      M''.valueOf (firstTemplate (.sym ['y'])).env (.sym ['y']) = .const (.number 2) := by
  have hall := (operands_in_order (c := callFirst) (m := 0) rfl (operandsKeep_first (.sym ['y']))
    (by decide)).2.2
  obtain ⟨body, M'', hcode, hsteps, hvals⟩ := hall _ _ (firstTemplate (.sym ['y']))
    globalEnvironment rfl (.inl (by decide)) rfl (definedBy_first _) rfl
  exact ⟨body, M'', hcode, hsteps, hvals 0 _ _ rfl rfl (by decide), hvals 1 _ _ rfl rfl (by decide)⟩

/-- With the formal `x` twice: both are the second operand. -/
theorem operands_not_in_order : ¬∀ (prog c k : List Code) (env : CompileTimeEnvt) (istail : Bool)
    (n m : ℕ) (f : Sym) (operands : List Expr) (vs : List Val) (M M' : Svm),
    compileExprM istail (.procCall (.variable f) (parseOperands operands)) n = some (c, m) →
    OperandsKeep prog env istail f n operands k vs M M' → M.stackTop ≤ M.stackBase →
    ∀ xs es t envt, builtinSym (.variable f) = none → env.Binds f →
      M'.valueOf env f = .closure t envt → DefinedBy f xs es t → xs.length = operands.length →
      ∃ body M'', t.code = header xs ++ body ∧
        steps prog (2 + 2 * xs.length)
          ⟨env, afterOperands istail f n operands.length ++ k, M'⟩ = some ⟨t.env, body, M''⟩ ∧
        ∀ (i : ℕ) x v, xs[i]? = some x → vs[i]? = some v → M''.valueOf t.env x = v := by
  intro hall
  obtain ⟨body, M'', -, hsteps, hvals⟩ := hall (firstProg (.sym ['x'])) callFirst []
    (topEnvt (firstProg (.sym ['x']))) true 0 0 (.sym ['f'])
    [.selfEval (.number 1), .selfEval (.number 2)] [.const (.number 1), .const (.number 2)]
    (firstSvm (.sym ['x'])) (firstPushed (.sym ['x'])) rfl (operandsKeep_first _) (by decide)
    [.sym ['x'], .sym ['x']] [.variable (.sym ['x'])] (firstTemplate (.sym ['x'])) globalEnvironment
    rfl (.inl (by decide)) rfl (definedBy_first _) rfl
  have hfirst := hvals 0 (.sym ['x']) (.const (.number 1)) rfl rfl
  have hsecond := hvals 1 (.sym ['x']) (.const (.number 2)) rfl rfl
  cases hfirst.symm.trans hsecond

end SchemeOs.Compiler
