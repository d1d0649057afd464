import SchemeOs.Compiler.Activations

/-!
# Compiler/StackTop — the operands of calls

A builtin function's operands are taken off the stack by the `MoveSp` behind it, which `builtin_add`
has already done; a closure's operands are taken off by nobody.  Where `+` gets no operand, and
closures get none, the code of an expression leaves the stack as it found it.
-/

namespace SchemeOs.Compiler

variable {prog : List Code} {s t : State} {home : List Cont} {start : ℤ}

/-- The next instruction does not call `+` with an operand, and does not apply a closure with an
operand: the stack is where it was when the call began. -/
def OperandFree (s : State) : Prop :=
  (∀ argc k, s.code = .callBuiltin (.sym ['+']) argc :: k → argc = 0) ∧
  ∀ k, s.code = .apply :: k → ∃ c rest, s.svm.cont = c :: rest ∧ s.svm.stackTop = c.stackTop

/-- A closure's code is that of a body, compiled, after what binds the parameters. -/
def Val.Compiled (prog : List Code) : Val → Prop
  | .closure t _ => ∃ args body cs n m, compileSeq true body n = some (cs, m) ∧
      t.code = header args ++ cs.flatten ++ [.leaveProc] ∧ Linked prog t.env [] t.code
  | _ => True

theorem Val.Compiled.ok {v : Val} (h : v.Compiled prog) : v.Ok prog := by
  cases v with
  | const d => trivial
  | junk => trivial
  | closure t envt =>
    obtain ⟨args, body, cs, n, m, hcs, hcode, hlinked⟩ := h
    rw [hcode, linked_append, linked_append] at hlinked
    have hbody : Balanced prog .procedure t.env 0 [] (cs.flatten ++ ([.leaveProc] ++ [])) :=
      balanced_seq body hcs hlinked.1.2 (fun _ => ⟨rfl, by simp⟩) .leaveProc
    rw [Val.Ok, hcode, List.append_assoc]
    exact hbody.header args

/-! ## The invariant

The stack pointer is that of the entry and what the code so far has pushed. -/

/-- The continuations of the calls `ls`, on `entry`: each is to find the stack with the operands
that there were when the call began, below `base`. -/
def Records (entry : List Cont) (base : ℤ) : List (ℕ × ℕ) → List Cont → Prop
  | [], cont => cont = entry
  | (l, n) :: ls, cont => ∃ envt template rest,
      cont = ⟨some l, envt, template, base - n⟩ :: rest ∧ Records entry base ls rest

/-- A part entered with `entry`, the stack at `base`: the expression, which the run starts with, or
a procedure that returns to a part with the operands on the stack that there were at the call. -/
inductive Steady (prog : List Code) (home : List Cont) (start : ℤ) :
    Part → List Cont → ℤ → Prop where
  | expression : Steady prog home start .expression home start
  | procedure {part env k n ls c rest entry base l} :
      findLabel l (topEnvt prog) [] prog = some (env, k) → Balanced prog part env n ls k →
      Records entry base ls rest → Steady prog home start part entry base → c.pc = some l →
      c.stackTop = base - n → Steady prog home start .procedure (c :: rest) (base - n)

/-- The stack has as many operands as the code counts with. -/
def Level (prog : List Code) (home : List Cont) (start : ℤ) (s : State) : Prop :=
  ∃ part n ls entry base, Balanced prog part s.env n ls s.code ∧ s.svm.stackTop = base - n ∧
    Records entry base ls s.svm.cont ∧ Steady prog home start part entry base ∧
    s.svm.All (Val.Ok prog)

/-! ## Steps -/

theorem callBuiltin_stackTop {f : List Char} {argc : ℕ} {m m' : Svm}
    (h : callBuiltin f argc m = some m') (hadd : f = ['+'] → argc = 0) :
    m'.stackTop = m.stackTop := by
  unfold callBuiltin at h
  split_ifs at h with h₁ h₂ h₃ h₄ h₅
  · cases h
    rfl
  · cases h
    rfl
  · cases h
    rfl
  · exact absurd (hadd h₃) h₄
  · cases h
    rfl

theorem step_plain_stackTop {env : CompileTimeEnvt} {i : Code} {k : List Code} {m : Svm}
    (hi : i.plain = true) (h : step prog ⟨env, i :: k, m⟩ = some t)
    (hfree : OperandFree ⟨env, i :: k, m⟩) : t.svm.stackTop = m.stackTop := by
  cases i, hi using Code.plain_cases with
  | fetchConst d =>
    cases h
    rfl
  | lookupVar x =>
    obtain ⟨p, -, rfl⟩ := Option.map_eq_some_iff.mp h
    rfl
  | label l =>
    cases h
    rfl
  | newBind x =>
    obtain ⟨p, -, rfl⟩ := Option.map_eq_some_iff.mp h
    rfl
  | reBind x =>
    obtain ⟨p, -, rfl⟩ := Option.map_eq_some_iff.mp h
    rfl
  | callBuiltin f argc =>
    cases f with
    | nil => cases h
    | sym f =>
      obtain ⟨m', hm', rfl⟩ := Option.map_eq_some_iff.mp h
      refine callBuiltin_stackTop hm' ?_
      rintro rfl
      exact hfree.1 argc k rfl
  | accStack n =>
    simp only [step] at h
    split_ifs at h
    cases h
    rfl
  | blankLn =>
    cases h
    rfl
  | nop =>
    cases h
    rfl

/-- **A step** without operands for `+` and for closures keeps the level. -/
theorem Level.step (h : Level prog home start s) (hfree : OperandFree s)
    (hstep : step prog s = some t) : Level prog home start t := by
  obtain ⟨env, code, m⟩ := s
  obtain ⟨part, n, ls, entry, base, hcode, htop, hrecords, hsteady, hok⟩ := h
  dsimp only at hcode htop hrecords hok
  cases hcode with
  | nil _ => cases hstep
  | plain hi hk =>
    obtain ⟨rfl, rfl, hcont, hok'⟩ := step_plain hi hstep hok
    have htop' := step_plain_stackTop hi hstep hfree
    exact ⟨part, n, ls, entry, base, hk, htop'.trans htop, hcont ▸ hrecords, hsteady, hok'⟩
  | push hk =>
    cases hstep
    refine ⟨part, n + 1, ls, entry, base, hk, ?_, hrecords, hsteady, hok.push⟩
    rw [Svm.push]
    dsimp only
    omega
  | @moveSp _ _ n _ _ argc hk =>
    cases hstep
    refine ⟨part, n, ls, entry, base, hk, ?_, hrecords, hsteady, hok.value, hok.stack,
      hok.bindings⟩
    dsimp only
    rw [htop]
    omega
  | makeClosure hbody hk =>
    cases hstep
    exact ⟨part, n, ls, entry, base, hk, htop, hrecords, hsteady, hok.setValue hbody⟩
  | ifTrue hcon halt =>
    cases hstep
    refine ⟨part, n, ls, entry, base, ?_, htop, hrecords, hsteady, hok⟩
    dsimp only
    split_ifs
    · exact halt
    · exact hcon
  | ifFalse hcon halt =>
    cases hstep
    refine ⟨part, n, ls, entry, base, ?_, htop, hrecords, hsteady, hok⟩
    dsimp only
    split_ifs
    · exact hcon
    · exact halt
  | goto hfind hk =>
    simp only [Compiler.step, hfind, Option.map_some, Option.some.injEq] at hstep
    subst hstep
    exact ⟨part, n, ls, entry, base, hk, htop, hrecords, hsteady, hok⟩
  | pushCont _ hk =>
    cases hstep
    refine ⟨part, n, _, entry, base, hk, htop, ⟨m.envt, m.template, m.cont, ?_, hrecords⟩,
      hsteady, hok.value, hok.stack, hok.bindings⟩
    rw [Svm.pushContinuation, htop]
  | @call _ _ _ n₀ ls l k hfind hk =>
    -- no operand has been pushed, so the callee starts where the call began
    obtain ⟨tpl, envt, hv, rfl⟩ := step_apply hstep
    obtain ⟨c, rest, hcont, hc⟩ := hfree.2 _ rfl
    obtain ⟨envt', template, rest', hcont', hrecords⟩ := hrecords
    dsimp only at hcont hc
    have hbody : Val.Ok prog m.value := hok.value
    rw [hv] at hbody
    rw [hcont'] at hcont
    obtain ⟨rfl, rfl⟩ := List.cons_eq_cons.mp hcont
    refine ⟨.procedure, 0, [], _, base - n₀, hbody, ?_, hcont', ?_, hok.value, hok.stack,
      hok.bindings⟩
    · dsimp only at hc ⊢
      omega
    · exact .procedure hfind hk hrecords hsteady rfl rfl
  | tailCall hpart _ =>
    -- the stack is where the call of the caller began
    obtain ⟨tpl, envt, hv, rfl⟩ := step_apply hstep
    obtain ⟨c, rest, hcont, hc⟩ := hfree.2 _ rfl
    dsimp only at hcont hc
    have hbody : Val.Ok prog m.value := hok.value
    rw [hv] at hbody
    refine ⟨.procedure, 0, [], entry, base, hbody, ?_, hrecords, ?_, hok.value, hok.stack,
      hok.bindings⟩
    · rw [Records] at hrecords
      cases hsteady with
      | expression => exact absurd rfl hpart
      | procedure _ _ _ _ _ htop' =>
        rw [hrecords] at hcont
        obtain ⟨rfl, rfl⟩ := List.cons_eq_cons.mp hcont
        dsimp only
        omega
    · cases hsteady with
      | expression => exact absurd rfl hpart
      | procedure hfind hk hrec hsteady hpc htop' =>
        exact .procedure hfind hk hrec hsteady hpc htop'
  | @leaveProc _ k' =>
    rw [Records] at hrecords
    cases hsteady with
    | @procedure part env' k n ls c rest entry base l hfind hk hrec hsteady hpc htop' =>
      have hret : Compiler.step prog ⟨env, .leaveProc :: k', m⟩ = some ⟨env', k, { m with
          envt := c.envt, template := c.template, cont := rest }⟩ := by
        simp only [Compiler.step, hrecords, hpc, hfind, Option.map_some]
      rw [hret] at hstep
      cases hstep
      refine ⟨part, n, ls, entry, base, hk, ?_, hrec, hsteady, hok.value, hok.stack,
        hok.bindings⟩
      dsimp only
      omega

/-- At the end of its code the expression has left no operand on the stack. -/
theorem Level.stackTop_eq (h : Level prog home start s) (hend : s.code = []) :
    s.svm.stackTop = start := by
  obtain ⟨part, n, ls, entry, base, hcode, htop, -, hsteady, -⟩ := h
  rw [hend] at hcode
  cases hcode with
  | nil hpart =>
    cases hsteady with
    | expression => omega
    | procedure _ _ _ _ _ _ => exact absurd rfl hpart

/-- **The code of an expression leaves the stack as it found it**, when it has run to its end and
neither `+` nor a closure was called with an operand. -/
theorem stackTop_of_run {e : Expr} {n m : ℕ} {c : List Code} {env : CompileTimeEnvt} {M : Svm}
    {as : List State} (hc : compileExprM false e n = some (c, m)) (hlinked : Linked prog env [] c)
    (hM : M.All (Val.Compiled prog))
    (hrun : Runs (Guarded (fun s _ => OperandFree s) (Steps prog)) ⟨env, c, M⟩ as t)
    (hend : t.code = []) : t.svm.stackTop = M.stackTop := by
  have hbalanced : Balanced prog .expression env 0 [] (c ++ []) :=
    balanced_expr e hc hlinked (by simp) (.nil (by simp))
  rw [List.append_nil] at hbalanced
  have hlevel : Level prog M.cont M.stackTop ⟨env, c, M⟩ :=
    ⟨.expression, 0, [], M.cont, M.stackTop, hbalanced, (Int.sub_zero _).symm, rfl, .expression,
      hM.mono fun _ => Val.Compiled.ok⟩
  refine (hrun.guarded_invariant (fun s a t hs hfree hstep => ?_) hlevel).stackTop_eq hend
  exact hs.step hfree (hstep.1 ▸ hstep.2)

/-- `(car '(1))`. -/
theorem stackTop_of_run_car :
    let c : List Code := [.fetchConst (.list [.number 1]), .push, .blankLn,
      .callBuiltin (.sym ['c', 'a', 'r']) 1, .moveSp 1, .blankLn]
    ∃ t as, Runs (Steps c) ⟨topEnvt c, c, .init⟩ as t ∧ t.code = [] ∧
      t.svm.stackTop = Svm.init.stackTop := by
  intro c
  have hc : compileExprM false (.procCall (.variable (.sym ['c', 'a', 'r']))
      [.quote (.list [.number 1])]) 0 = some (c, 1) := rfl
  have hlinked : Linked c (topEnvt c) [] c := by simp [c, Linked, LinkedIn]
  have hinit : Svm.init.All (Val.Compiled c) := ⟨trivial, fun _ => trivial, fun _ _ => trivial⟩
  have hfree : ∀ {env : CompileTimeEnvt} {i : Code} {k : List Code} {m : Svm}, i ≠ .apply →
      (∀ argc, i ≠ .callBuiltin (.sym ['+']) argc) → OperandFree ⟨env, i :: k, m⟩ :=
    fun happly hadd => ⟨fun argc _ h => absurd (List.cons_eq_cons.mp h).1 (hadd argc),
      fun _ h => absurd (List.cons_eq_cons.mp h).1 happly⟩
  obtain ⟨t, as, hrun, hend⟩ : ∃ t as, Runs (Guarded (fun s _ => OperandFree s) (Steps c))
      ⟨topEnvt c, c, .init⟩ as t ∧ t.code = [] := by
    exact ⟨_, _, .cons ⟨hfree (by simp) (by simp), rfl, rfl⟩ (.cons ⟨hfree (by simp) (by simp),
      rfl, rfl⟩ (.cons ⟨hfree (by simp) (by simp), rfl, rfl⟩ (.cons ⟨hfree (by simp) (by simp),
      rfl, rfl⟩ (.cons ⟨hfree (by simp) (by simp), rfl, rfl⟩ (.single ⟨hfree (by simp) (by simp),
      rfl, rfl⟩))))), rfl⟩
  exact ⟨t, as, hrun.mono fun _ _ _ h => h.2, hend, stackTop_of_run hc hlinked hinit hrun hend⟩

/-- `(+ 1)` takes its operand off the stack twice. -/
theorem stackTop_ne_of_add : ¬ ∀ (prog : List Code) (e : Expr) (n m : ℕ) (c : List Code)
    (env : CompileTimeEnvt) (M : Svm) (as : List State) (t : State),
    compileExprM false e n = some (c, m) → Linked prog env [] c → M.All (Val.Compiled prog) →
      Runs (Steps prog) ⟨env, c, M⟩ as t → t.code = [] → t.svm.stackTop = M.stackTop := by
  intro hall
  have hc : compileExprM false
      (.procCall (.variable (.sym ['+'])) [.selfEval (.number 1)]) 0 = some
        ([.fetchConst (.number 1), .push, .blankLn, .callBuiltin (.sym ['+']) 1, .moveSp 1,
          .blankLn], 1) := rfl
  have hlinked : Linked [] .nullEnvt [] [.fetchConst (.number 1), .push, .blankLn,
      .callBuiltin (.sym ['+']) 1, .moveSp 1, .blankLn] := by
    simp [Linked, LinkedIn]
  have hrun : ∃ t as, Runs (Steps []) ⟨.nullEnvt, [.fetchConst (.number 1), .push, .blankLn,
      .callBuiltin (.sym ['+']) 1, .moveSp 1, .blankLn], .init⟩ as t ∧ t.code = [] ∧
        t.svm.stackTop = 1 :=
    ⟨_, _, .cons ⟨rfl, rfl⟩ (.cons ⟨rfl, rfl⟩ (.cons ⟨rfl, rfl⟩ (.cons ⟨rfl, rfl⟩
      (.cons ⟨rfl, rfl⟩ (.cons ⟨rfl, rfl⟩ (.nil _)))))), rfl, rfl⟩
  obtain ⟨t, as, hrun, hend, htop⟩ := hrun
  have heq := hall [] _ 0 1 _ .nullEnvt .init as t hc hlinked
    ⟨trivial, fun _ => trivial, fun _ _ => trivial⟩ hrun hend
  rw [htop] at heq
  exact absurd heq (by decide)

end SchemeOs.Compiler
