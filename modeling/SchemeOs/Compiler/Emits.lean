import Mathlib
import SchemeOs.Compiler.Compile

/-!
# Compiler/Emits — what the compiler emits

One equation for each form: `compileExprM istail e n = some (c, m)` says that `e` has the code `c`,
and that the labels from `n` up to `m` are taken for it.
-/

namespace SchemeOs.Compiler

variable {istail : Bool} {n m : ℕ} {c : List Code} {cs : List (List Code)} {e func : Expr}
  {es args : List Expr}

/-- Code with a tail after each part. -/
def withTail (tail : List Code) (cs : List (List Code)) : List Code := cs.flatMap fun c => c ++ tail

@[simp] theorem withTail_nil (tail : List Code) : withTail tail [] = [] := rfl

@[simp] theorem withTail_cons (tail c : List Code) (cs : List (List Code)) :
    withTail tail (c :: cs) = c ++ tail ++ withTail tail cs := by
  simp [withTail]

/-- The last test of `and` and `or` is cut off. -/
theorem removeLast_withTail (t : Code) (h : cs ≠ []) :
    withTail [t] cs = removeLast (withTail [t] cs) ++ [t] := by
  obtain ⟨cs, c, rfl⟩ := List.eq_nil_or_concat cs |>.resolve_left h
  simp [withTail, removeLast, ← List.append_assoc]

/-- The code of `and` and `or` tests an operand unless it is the last. -/
theorem removeLast_withTail_cons (t : Code) (c : List Code) (cs : List (List Code)) :
    removeLast (withTail [t] (c :: cs)) =
      if cs = [] then c else c ++ t :: removeLast (withTail [t] cs) := by
  have h : withTail [t] (c :: cs) = removeLast (withTail [t] (c :: cs)) ++ [t] :=
    removeLast_withTail t (List.cons_ne_nil c cs)
  refine List.append_cancel_right (h.symm.trans ?_)
  rw [withTail_cons]
  split_ifs with hcs
  · rw [hcs, withTail_nil, List.append_nil]
  · calc c ++ [t] ++ withTail [t] cs
        = c ++ [t] ++ (removeLast (withTail [t] cs) ++ [t]) := by rw [← removeLast_withTail t hcs]
      _ = c ++ t :: removeLast (withTail [t] cs) ++ [t] := by simp

/-- What is collected from code, with a tail after each part that adds nothing. -/
theorem collect_withTail {α : Type} {f : List Code → List α} {tail : List Code}
    (happend : ∀ c c', f (c ++ c') = f c ++ f c') (hnil : f [] = []) (ht : f tail = []) :
    f (withTail tail cs) = f cs.flatten := by
  induction cs with
  | nil => simp [hnil]
  | cons c cs ih => simp [happend, ht, ih]

theorem collect_removeLast {α : Type} {f : List Code → List α} {t : Code}
    (happend : ∀ c c', f (c ++ c') = f c ++ f c') (hnil : f [] = []) (ht : f [t] = [])
    (h : cs ≠ []) : f (removeLast (withTail [t] cs)) = f cs.flatten := by
  have htail : f (withTail [t] cs) = _ := collect_withTail happend hnil ht
  rw [removeLast_withTail t h, happend, ht, List.append_nil] at htail
  exact htail

theorem emits_variable {s : Sym} :
    compileExprM istail (.variable s) n = some (c, m) ↔ c = [.lookupVar s] ∧ m = n := by
  simp [compileExprM, pure, StateT.pure, eq_comm]

theorem emits_quote {d : Datum} :
    compileExprM istail (.quote d) n = some (c, m) ↔ c = [.fetchConst d] ∧ m = n := by
  simp [compileExprM, pure, StateT.pure, eq_comm]

theorem emits_selfEval {d : Datum} :
    compileExprM istail (.selfEval d) n = some (c, m) ↔ c = [.fetchConst d] ∧ m = n := by
  simp [compileExprM, pure, StateT.pure, eq_comm]

/-- The label of a call, if it takes one. -/
theorem codeBlock_run : codeBlock istail n =
    some (if istail then ([], []) else ([.pushCont n], [.label n]),
      if istail then n else n + 1) := by
  cases istail <;> rfl

theorem emits_builtin {s : Sym} (hs : builtinSym func = some s) :
    compileExprM istail (.procCall func args) n = some (c, m) ↔
      ∃ cs, compileSeq false args (if istail then n else n + 1) = some (cs, m) ∧
        c = withTail [.push, .blankLn] cs ++
          [.callBuiltin s args.length, .moveSp args.length, .blankLn] := by
  simp only [compileExprM, bind, StateT.bind, codeBlock_run, hs, pure, StateT.pure,
    Option.bind_some, Option.bind_eq_some_iff, Prod.exists, Option.some.injEq, Prod.mk.injEq]
  constructor
  · rintro ⟨cs, k, hcs, rfl, rfl⟩
    exact ⟨cs, hcs, rfl⟩
  · rintro ⟨cs, hcs, rfl⟩
    exact ⟨cs, m, hcs, rfl, rfl⟩

theorem emits_procCall (hs : builtinSym func = none) :
    compileExprM istail (.procCall func args) n = some (c, m) ↔
      ∃ cs k op, compileSeq false args (if istail then n else n + 1) = some (cs, k) ∧
        compileExprM false func k = some (op, m) ∧
        c = (if istail then [] else [.pushCont n]) ++ withTail [.push, .blankLn] cs ++ op ++
          [.apply] ++ (if istail then [] else [.label n]) ++ [.blankLn] := by
  simp only [compileExprM, bind, StateT.bind, codeBlock_run, hs, pure, StateT.pure,
    Option.bind_some, Option.bind_eq_some_iff, Prod.exists, Option.some.injEq, Prod.mk.injEq]
  constructor
  · rintro ⟨cs, k, hcs, op, m', hop, rfl, rfl⟩
    refine ⟨cs, k, op, hcs, hop, ?_⟩
    cases istail <;> rfl
  · rintro ⟨cs, k, op, hcs, hop, rfl⟩
    refine ⟨cs, k, hcs, op, m, hop, ?_, rfl⟩
    cases istail <;> rfl

/-- A form whose code is made from what one computation returns. -/
theorem run_map {α : Type} (x : CodeM α) (f : α → List Code) :
    ((x >>= fun a => pure (f a) : CodeM (List Code)) n) = some (c, m) ↔
      ∃ a, x n = some (a, m) ∧ c = f a := by
  simp only [bind, StateT.bind, pure, StateT.pure, Option.bind_eq_some_iff,
    Prod.exists, Option.some.injEq, Prod.mk.injEq]
  constructor
  · rintro ⟨a, k, ha, rfl, rfl⟩
    exact ⟨a, ha, rfl⟩
  · rintro ⟨a, ha, rfl⟩
    exact ⟨a, m, ha, rfl, rfl⟩

theorem emits_sequence :
    compileExprM istail (.sequence es) n = some (c, m) ↔
      ∃ cs, compileSeq istail es n = some (cs, m) ∧ c = cs.flatten := by
  rw [compileExprM, run_map]

theorem emits_lambda {formals : Formals} :
    compileExprM istail (.lambda formals es) n = some (c, m) ↔
      ∃ cs, compileSeq true es n = some (cs, m) ∧
        c = [.makeClosure .nil formals (cs.flatten ++ [.leaveProc])] := by
  rw [compileExprM, run_map]

theorem emits_defvar {name : Sym} :
    compileExprM istail (.defvar name e) n = some (c, m) ↔
      ∃ c', compileExprM false e n = some (c', m) ∧ c = c' ++ [.newBind name, .nop] := by
  rw [compileExprM, run_map]

theorem emits_defun {name : Sym} {params : List Sym} :
    compileExprM istail (.defun name params es) n = some (c, m) ↔
      ∃ cs, compileSeq true es n = some (cs, m) ∧
        c = [.makeClosure name (.args params) (header params ++ cs.flatten ++ [.leaveProc]),
          .newBind name, .nop] := by
  rw [compileExprM, run_map]

theorem emits_defun2 {name rest : Sym} {params : List Sym} :
    compileExprM istail (.defun2 name params rest es) n = some (c, m) ↔
      ∃ cs, compileSeq true es n = some (cs, m) ∧
        c = [.makeClosure name (.args2 params rest) (cs.flatten ++ [.leaveProc]),
          .newBind name, .nop] := by
  rw [compileExprM, run_map]

theorem emits_assign {x : Sym} :
    compileExprM istail (.assign x e) n = some (c, m) ↔
      ∃ c', compileExprM false e n = some (c', m) ∧ c = c' ++ [.reBind x, .nop] := by
  rw [compileExprM, run_map]

theorem emits_branch {test thenExp elseExp : Expr} :
    compileExprM istail (.branch test thenExp elseExp) n = some (c, m) ↔
      ∃ cTest n₁ cThen n₂ cElse, compileExprM false test n = some (cTest, n₁) ∧
        compileExprM istail thenExp n₁ = some (cThen, n₂) ∧
        compileExprM istail elseExp n₂ = some (cElse, m) ∧ c = cTest ++ [.ifTrue cThen cElse] := by
  simp only [compileExprM, bind, StateT.bind, pure, StateT.pure, Option.bind_eq_some_iff,
    Prod.exists, Option.some.injEq, Prod.mk.injEq]
  constructor
  · rintro ⟨cTest, n₁, h₁, cThen, n₂, h₂, cElse, _, h₃, rfl, rfl⟩
    exact ⟨cTest, n₁, cThen, n₂, cElse, h₁, h₂, h₃, rfl⟩
  · rintro ⟨cTest, n₁, cThen, n₂, cElse, h₁, h₂, h₃, rfl⟩
    exact ⟨cTest, n₁, h₁, cThen, n₂, h₂, cElse, m, h₃, rfl, rfl⟩

theorem emits_cond {clauses : List (Expr × List Expr)} :
    compileExprM istail (.cond clauses) n = some (c, m) ↔
      ∃ c', compileClauses istail n clauses (n + 1) = some (c', m) ∧
        c = c' ++ [.fetchConst .void, .label n] := by
  simp only [compileExprM, bind, StateT.bind, getLabel, pure, StateT.pure, Option.bind_some,
    Option.bind_eq_some_iff, Prod.exists, Option.some.injEq, Prod.mk.injEq]
  constructor
  · rintro ⟨c', _, hc', rfl, rfl⟩
    exact ⟨c', hc', rfl⟩
  · rintro ⟨c', hc', rfl⟩
    exact ⟨c', m, hc', rfl, rfl⟩

theorem emits_and_nil :
    compileExprM istail (.and []) n = some (c, m) ↔ c = [.fetchConst (.boolean true)] ∧ m = n := by
  simp [compileExprM, pure, StateT.pure, eq_comm]

theorem emits_or_nil :
    compileExprM istail (.or []) n = some (c, m) ↔ c = [.fetchConst (.boolean false)] ∧ m = n := by
  simp [compileExprM, pure, StateT.pure, eq_comm]

/-- The code of `and` and `or` is that of the operands with a test after each but the last. -/
theorem run_seq_label (f : List (List Code) → ℕ → List Code) :
    ((do
      let cs ← compileSeq istail es
      let lend ← getLabel
      return f cs lend : CodeM (List Code)) n) = some (c, m) ↔
      ∃ cs k, compileSeq istail es n = some (cs, k) ∧ m = k + 1 ∧ c = f cs k := by
  simp only [bind, StateT.bind, getLabel, pure, StateT.pure, Option.bind_some,
    Option.bind_eq_some_iff, Prod.exists, Option.some.injEq, Prod.mk.injEq]
  constructor
  · rintro ⟨cs, k, hcs, rfl, rfl⟩
    exact ⟨cs, k, hcs, rfl, rfl⟩
  · rintro ⟨cs, k, hcs, rfl, rfl⟩
    exact ⟨cs, k, hcs, rfl, rfl⟩

theorem emits_and :
    compileExprM istail (.and (e :: es)) n = some (c, m) ↔
      ∃ cs k, compileSeq istail (e :: es) n = some (cs, k) ∧ m = k + 1 ∧
        c = removeLast (withTail [.ifFalse [.goto k] []] cs) ++ [.label k] := by
  rw [compileExprM, run_seq_label]
  rfl

theorem emits_or :
    compileExprM istail (.or (e :: es)) n = some (c, m) ↔
      ∃ cs k, compileSeq istail (e :: es) n = some (cs, k) ∧ m = k + 1 ∧
        c = removeLast (withTail [.ifTrue [.goto k] []] cs) ++ [.label k] := by
  rw [compileExprM, run_seq_label]
  rfl

theorem emits_seq_nil : compileSeq istail [] n = some (cs, m) ↔ cs = [] ∧ m = n := by
  simp [compileSeq, pure, StateT.pure, eq_comm]

/-- All but the last expression of a sequence are compiled as if something followed. -/
theorem emits_seq_cons :
    compileSeq istail (e :: es) n = some (cs, m) ↔
      ∃ c' k cs', compileExprM (istail && es.isEmpty) e n = some (c', k) ∧
        compileSeq istail es k = some (cs', m) ∧ cs = c' :: cs' := by
  rw [compileSeq]
  cases es with
  | nil =>
    simp only [List.isEmpty_nil, Bool.and_true, if_true, bind, StateT.bind, pure, StateT.pure,
      Option.bind_eq_some_iff, Prod.exists, Option.some.injEq, Prod.mk.injEq, emits_seq_nil]
    constructor
    · rintro ⟨c', k, hc', rfl, rfl⟩
      exact ⟨c', k, [], hc', ⟨rfl, rfl⟩, rfl⟩
    · rintro ⟨c', k, cs', hc', ⟨rfl, rfl⟩, rfl⟩
      exact ⟨c', m, hc', rfl, rfl⟩
  | cons e' es =>
    simp only [List.isEmpty_cons, Bool.and_false, Bool.false_eq_true, if_false, bind, StateT.bind,
      pure, StateT.pure, Option.bind_eq_some_iff, Prod.exists, Option.some.injEq, Prod.mk.injEq]
    constructor
    · rintro ⟨c', k, hc', cs', _, hcs', rfl, rfl⟩
      exact ⟨c', k, cs', hc', hcs', rfl⟩
    · rintro ⟨c', k, cs', hc', hcs', rfl⟩
      exact ⟨c', k, hc', cs', m, hcs', rfl, rfl⟩

/-- The program of a single expression is the code of the expression. -/
theorem compile_singleton : compile [e] = (compileExprM true e 0).map Prod.fst := by
  rw [compile, StateT.run]
  ext c
  simp only [Option.map_eq_some_iff, Prod.exists, exists_and_right, exists_eq_right]
  refine exists_congr fun m => ?_
  rw [emits_sequence]
  constructor
  · rintro ⟨cs, hcs, rfl⟩
    obtain ⟨c, _, rest, hc, hrest, rfl⟩ := emits_seq_cons.mp hcs
    obtain ⟨rfl, rfl⟩ := emits_seq_nil.mp hrest
    simpa using hc
  · intro h
    refine ⟨[c], emits_seq_cons.mpr ⟨c, m, [], h, ?_, rfl⟩, (List.flatten_singleton).symm⟩
    exact emits_seq_nil.mpr ⟨rfl, rfl⟩

theorem emits_clauses_nil {l : ℕ} :
    compileClauses istail l [] n = some (c, m) ↔ c = [] ∧ m = n := by
  simp [compileClauses, pure, StateT.pure, eq_comm]

theorem emits_clauses_cons {l : ℕ} {clauses : List (Expr × List Expr)} :
    compileClauses istail l ((e, es) :: clauses) n = some (c, m) ↔
      ∃ t n₁ cs n₂ rest, compileExprM false e n = some (t, n₁) ∧
        compileSeq istail es n₁ = some (cs, n₂) ∧
        compileClauses istail l clauses n₂ = some (rest, m) ∧
        c = t ++ [.ifTrue (cs.flatten ++ [.goto l]) []] ++ rest := by
  simp only [compileClauses, bind, StateT.bind, pure, StateT.pure, Option.bind_eq_some_iff,
    Prod.exists, Option.some.injEq, Prod.mk.injEq]
  constructor
  · rintro ⟨t, n₁, h₁, cs, n₂, h₂, rest, _, h₃, rfl, rfl⟩
    exact ⟨t, n₁, cs, n₂, rest, h₁, h₂, h₃, rfl⟩
  · rintro ⟨t, n₁, cs, n₂, rest, h₁, h₂, h₃, rfl⟩
    exact ⟨t, n₁, h₁, cs, n₂, h₂, rest, m, h₃, rfl, rfl⟩

theorem compileSeq_length : (es : List Expr) → {n m : ℕ} → {cs : List (List Code)} →
    compileSeq istail es n = some (cs, m) → cs.length = es.length
  | [], _, _, _, h => by
    rw [(emits_seq_nil.mp h).1]
    rfl
  | _ :: es, _, _, _, h => by
    obtain ⟨_, _, _, -, hcs, rfl⟩ := emits_seq_cons.mp h
    rw [List.length_cons, List.length_cons, compileSeq_length es hcs]

theorem ne_nil_of_compileSeq (h : compileSeq istail (e :: es) n = some (cs, m)) : cs ≠ [] := by
  intro hnil
  have := compileSeq_length _ h
  rw [hnil] at this
  exact absurd this (by simp)

end SchemeOs.Compiler
