import SchemeOs.Compiler.Emits

/-!
# Compiler/Supported — which programs the compiler has code for

`compileExprM` has no case for `case` and `let`.  A program without them has code
(`exists_compile_of_supported`), wherever else its forms are nested.
-/

namespace SchemeOs.Compiler

mutual

/-- There is no `case` and no `let` in the expression. -/
def Supported : Expr → Prop
  | .procCall func args => AllSupported args ∧ Supported func
  | .sequence exps => AllSupported exps
  | .lambda _ body => AllSupported body
  | .defvar _ exp => Supported exp
  | .defun _ _ body => AllSupported body
  | .defun2 _ _ _ body => AllSupported body
  | .assign _ exp => Supported exp
  | .branch test thenExp elseExp => Supported test ∧ Supported thenExp ∧ Supported elseExp
  | .cond clauses => ClausesSupported clauses
  | .and exps => AllSupported exps
  | .or exps => AllSupported exps
  | .case _ _ _ => False
  | .let _ _ => False
  | _ => True

/-- `Supported`, for every expression. -/
def AllSupported : List Expr → Prop
  | [] => True
  | exp :: exps => Supported exp ∧ AllSupported exps

/-- `Supported`, for every test and every body. -/
def ClausesSupported : List (Expr × List Expr) → Prop
  | [] => True
  | (tst, seq) :: clauses => Supported tst ∧ AllSupported seq ∧ ClausesSupported clauses

end

/-! ## What is supported has code -/

mutual

theorem exists_code_of_supported : (e : Expr) → (istail : Bool) → (n : ℕ) → Supported e →
    ∃ c m, compileExprM istail e n = some (c, m)
  | .variable _, _, _, _ => ⟨_, _, emits_variable.mpr ⟨rfl, rfl⟩⟩
  | .quote _, _, _, _ => ⟨_, _, emits_quote.mpr ⟨rfl, rfl⟩⟩
  | .selfEval _, _, _, _ => ⟨_, _, emits_selfEval.mpr ⟨rfl, rfl⟩⟩
  | .procCall func args, istail, n, h => by
    rw [Supported] at h
    obtain ⟨cs, k, hcs⟩ := exists_seq_of_supported args false (if istail then n else n + 1) h.1
    cases hs : builtinSym func with
    | some s => exact ⟨_, k, (emits_builtin hs).mpr ⟨cs, hcs, rfl⟩⟩
    | none =>
      obtain ⟨op, m, hop⟩ := exists_code_of_supported func false k h.2
      exact ⟨_, m, (emits_procCall hs).mpr ⟨cs, k, op, hcs, hop, rfl⟩⟩
  | .sequence es, istail, n, h => by
    rw [Supported] at h
    obtain ⟨cs, m, hcs⟩ := exists_seq_of_supported es istail n h
    exact ⟨_, m, emits_sequence.mpr ⟨cs, hcs, rfl⟩⟩
  | .lambda _ es, _, n, h => by
    rw [Supported] at h
    obtain ⟨cs, m, hcs⟩ := exists_seq_of_supported es true n h
    exact ⟨_, m, emits_lambda.mpr ⟨cs, hcs, rfl⟩⟩
  | .defvar _ e, _, n, h => by
    rw [Supported] at h
    obtain ⟨c, m, hc⟩ := exists_code_of_supported e false n h
    exact ⟨_, m, emits_defvar.mpr ⟨c, hc, rfl⟩⟩
  | .defun _ _ es, _, n, h => by
    rw [Supported] at h
    obtain ⟨cs, m, hcs⟩ := exists_seq_of_supported es true n h
    exact ⟨_, m, emits_defun.mpr ⟨cs, hcs, rfl⟩⟩
  | .defun2 _ _ _ es, _, n, h => by
    rw [Supported] at h
    obtain ⟨cs, m, hcs⟩ := exists_seq_of_supported es true n h
    exact ⟨_, m, emits_defun2.mpr ⟨cs, hcs, rfl⟩⟩
  | .assign _ e, _, n, h => by
    rw [Supported] at h
    obtain ⟨c, m, hc⟩ := exists_code_of_supported e false n h
    exact ⟨_, m, emits_assign.mpr ⟨c, hc, rfl⟩⟩
  | .branch test thenExp elseExp, istail, n, h => by
    rw [Supported] at h
    obtain ⟨_, n₁, hTest⟩ := exists_code_of_supported test false n h.1
    obtain ⟨_, n₂, hThen⟩ := exists_code_of_supported thenExp istail n₁ h.2.1
    obtain ⟨_, m, hElse⟩ := exists_code_of_supported elseExp istail n₂ h.2.2
    exact ⟨_, m, emits_branch.mpr ⟨_, _, _, _, _, hTest, hThen, hElse, rfl⟩⟩
  | .cond clauses, istail, n, h => by
    rw [Supported] at h
    obtain ⟨c, m, hc⟩ := exists_clauses_of_supported clauses istail n (n + 1) h
    exact ⟨_, m, emits_cond.mpr ⟨c, hc, rfl⟩⟩
  | .and [], _, _, _ => ⟨_, _, emits_and_nil.mpr ⟨rfl, rfl⟩⟩
  | .and (e :: es), istail, n, h => by
    rw [Supported] at h
    obtain ⟨cs, m, hcs⟩ := exists_seq_of_supported (e :: es) istail n h
    exact ⟨_, m + 1, emits_and.mpr ⟨cs, m, hcs, rfl, rfl⟩⟩
  | .or [], _, _, _ => ⟨_, _, emits_or_nil.mpr ⟨rfl, rfl⟩⟩
  | .or (e :: es), istail, n, h => by
    rw [Supported] at h
    obtain ⟨cs, m, hcs⟩ := exists_seq_of_supported (e :: es) istail n h
    exact ⟨_, m + 1, emits_or.mpr ⟨cs, m, hcs, rfl, rfl⟩⟩
  | .case _ _ _, _, _, h => h.elim
  | .let _ _, _, _, h => h.elim

theorem exists_seq_of_supported : (es : List Expr) → (istail : Bool) → (n : ℕ) →
    AllSupported es → ∃ cs m, compileSeq istail es n = some (cs, m)
  | [], _, n, _ => ⟨_, n, emits_seq_nil.mpr ⟨rfl, rfl⟩⟩
  | e :: es, istail, n, h => by
    rw [AllSupported] at h
    obtain ⟨c, k, hc⟩ := exists_code_of_supported e (istail && es.isEmpty) n h.1
    obtain ⟨cs, m, hcs⟩ := exists_seq_of_supported es istail k h.2
    exact ⟨_, m, emits_seq_cons.mpr ⟨c, k, cs, hc, hcs, rfl⟩⟩

theorem exists_clauses_of_supported : (clauses : List (Expr × List Expr)) → (istail : Bool) →
    (l n : ℕ) → ClausesSupported clauses →
    ∃ c m, compileClauses istail l clauses n = some (c, m)
  | [], _, _, n, _ => ⟨_, n, emits_clauses_nil.mpr ⟨rfl, rfl⟩⟩
  | (tst, seq) :: clauses, istail, l, n, h => by
    rw [ClausesSupported] at h
    obtain ⟨_, n₁, ht⟩ := exists_code_of_supported tst false n h.1
    obtain ⟨_, n₂, hcs⟩ := exists_seq_of_supported seq istail n₁ h.2.1
    obtain ⟨_, m, hrest⟩ := exists_clauses_of_supported clauses istail l n₂ h.2.2
    exact ⟨_, m, emits_clauses_cons.mpr ⟨_, _, _, _, _, ht, hcs, hrest, rfl⟩⟩

end

/-! ## What has code is supported -/

theorem supported_of_builtinSym {func : Expr} {s : Sym} (h : builtinSym func = some s) :
    Supported func := by
  rw [builtinSym.eq_def] at h
  split at h
  · trivial
  · cases h

/-! ## Programs -/

theorem exists_compile_of_supported {es : List Expr} (h : AllSupported es) :
    ∃ cs m, compileSeq true es 0 = some (cs, m) ∧ compile es = some cs.flatten := by
  obtain ⟨cs, m, hcs⟩ := exists_seq_of_supported es true 0 h
  exact ⟨cs, m, hcs, Option.map_eq_some_iff.mpr
    ⟨(cs.flatten, m), emits_sequence.mpr ⟨cs, hcs, rfl⟩, rfl⟩⟩

end SchemeOs.Compiler
