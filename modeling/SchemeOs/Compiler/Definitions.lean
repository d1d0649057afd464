import SchemeOs.Compiler.Accepted
import SchemeOs.Compiler.Scopes

/-!
# Compiler/Definitions — where definitions stand

The grammar has definitions at the top level and in the bodies of procedures only: the parts of any
other expression are `Expr0`s.  So compiled code binds a new variable outside of the blocks of its
tests, where `scanForNewbind` finds it (`newBinds_eq_scanForNewbind`).
-/

namespace SchemeOs.Compiler

/-! ## The grammar

What the parser can build: a definition stands at the top of a program or of a body only. -/

mutual

/-- The parser builds the expression as an `Expr`, or as an `Expr0` if no definition is allowed. -/
def Grammatical (definition : Bool) : Expr → Prop
  | .variable _ => True
  | .quote _ => True
  | .selfEval _ => True
  | .procCall func args => Grammatical false func ∧ AllGrammatical false args
  | .sequence _ => False
  | .lambda _ body => AllGrammatical true body
  | .defvar _ exp => definition = true ∧ Grammatical false exp
  | .defun _ _ body => definition = true ∧ AllGrammatical true body
  | .defun2 _ _ _ body => definition = true ∧ AllGrammatical true body
  | .branch test thenExp elseExp =>
    Grammatical false test ∧ Grammatical false thenExp ∧ Grammatical false elseExp
  | .assign _ exp => Grammatical false exp
  | .cond clauses => ClausesGrammatical clauses
  | .case key clauses els =>
    Grammatical false key ∧ CaseClausesGrammatical clauses ∧ AllGrammatical false els
  | .and exps => AllGrammatical false exps
  | .or exps => AllGrammatical false exps
  | .let binds body => BindingsGrammatical binds ∧ AllGrammatical true body

/-- `Grammatical`, for every expression of a sequence. -/
def AllGrammatical (definition : Bool) : List Expr → Prop
  | [] => True
  | exp :: exps => Grammatical definition exp ∧ AllGrammatical definition exps

/-- `CondClause_plus`. -/
def ClausesGrammatical : List (Expr × List Expr) → Prop
  | [] => True
  | (tst, seq) :: clauses =>
    Grammatical false tst ∧ AllGrammatical false seq ∧ ClausesGrammatical clauses

/-- `CaseClause_star`. -/
def CaseClausesGrammatical : List (List Datum × List Expr) → Prop
  | [] => True
  | (_, seq) :: clauses => AllGrammatical false seq ∧ CaseClausesGrammatical clauses

/-- `Bindings`. -/
def BindingsGrammatical : List (Sym × Expr) → Prop
  | [] => True
  | (_, exp) :: binds => Grammatical false exp ∧ BindingsGrammatical binds

end

/-! ## New variables

The scan of the code for `NewBind` does not look into branches and bodies. -/

mutual

/-- The variables that the code of a procedure binds, also in the blocks of its tests. -/
def newBinds : List Code → List Sym
  | [] => []
  | i :: c => newBindsIn i ++ newBinds c

/-- `newBinds`, for one instruction. -/
def newBindsIn : Code → List Sym
  | .newBind x => [x]
  | .ifTrue con alt => newBinds con ++ newBinds alt
  | .ifFalse con alt => newBinds con ++ newBinds alt
  | _ => []

end

variable {b istail : Bool} {n m : ℕ} {c c' : List Code} {e : Expr} {t : Code}
  {cs : List (List Code)}

@[simp] theorem newBinds_append (c c' : List Code) :
    newBinds (c ++ c') = newBinds c ++ newBinds c' := by
  induction c with
  | nil => rfl
  | cons i c ih => rw [List.cons_append, newBinds, newBinds, ih, List.append_assoc]

theorem newBinds_header (args : List Sym) : newBinds (header args) = [] := by
  rw [header]
  induction args.zipIdx with
  | nil => rfl
  | cons vi rest ih =>
    rw [List.flatMap_cons, newBinds_append, ih]
    rfl

theorem bodies_header (args : List Sym) : bodies (header args) = [] := by
  rw [header]
  induction args.zipIdx with
  | nil => rfl
  | cons vi rest ih =>
    rw [List.flatMap_cons, bodies_append, ih]
    rfl

/-- What `scanForNewbind` finds is bound. -/
theorem scanForNewbind_eq_nil (h : newBinds c = []) : scanForNewbind c = [] := by
  induction c with
  | nil => rfl
  | cons i c ih =>
    rw [newBinds, List.append_eq_nil_iff] at h
    change _ ++ scanForNewbind c = []
    rw [ih h.2, List.append_nil]
    cases i with
    | newBind x => exact nomatch h.1
    | _ => rfl

/-- Every body of a procedure in the code binds its variables where `scanForNewbind` finds them, and
so does the code itself; it binds none if no definition is allowed. -/
def Flat (b : Bool) (c : List Code) : Prop :=
  (∀ body ∈ bodies c, newBinds body = scanForNewbind body) ∧
    newBinds c = if b then scanForNewbind c else []

namespace Flat

/-- Code that binds nothing. -/
theorem of_nil (hb : ∀ body ∈ bodies c, newBinds body = scanForNewbind body)
    (hc : newBinds c = []) :
    Flat b c := by
  refine ⟨hb, ?_⟩
  rw [hc, scanForNewbind_eq_nil hc]
  cases b <;> rfl

/-- Code without procedures, which binds nothing. -/
theorem plain (hb : bodies c = []) (hc : newBinds c = []) : Flat b c :=
  of_nil (fun _ hbody => absurd (hb ▸ hbody) List.not_mem_nil) hc

theorem inner (h : Flat false c) : newBinds c = [] := h.2

theorem of_inner (h : Flat false c) : Flat b c := of_nil h.1 h.2

theorem append (h : Flat b c) (h' : Flat b c') : Flat b (c ++ c') := by
  refine ⟨?_, ?_⟩
  · rw [bodies_append]
    exact fun body hbody => (List.mem_append.mp hbody).elim (h.1 body) (h'.1 body)
  · rw [newBinds_append, scanForNewbind_append, h.2, h'.2]
    cases b <;> rfl

theorem left (h : Flat false (c ++ c')) : Flat false c := by
  have hnil := h.inner
  rw [newBinds_append, List.append_eq_nil_iff] at hnil
  refine of_nil (fun body hbody => h.1 body ?_) hnil.1
  rw [bodies_append]
  exact List.mem_append_left _ hbody

/-- A block of a test, which may not bind anything. -/
theorem ifTrue {con alt : List Code} (hcon : Flat false con) (halt : Flat false alt) :
    Flat b [.ifTrue con alt] := by
  refine of_nil ?_ ?_
  · intro body hbody
    rw [bodies, bodiesIn, bodies, List.append_nil] at hbody
    exact (List.mem_append.mp hbody).elim (hcon.1 body) (halt.1 body)
  · rw [newBinds, newBindsIn, hcon.inner, halt.inner]
    rfl

/-- The closure of a procedure. -/
theorem makeClosure {name : Sym} {formals : Formals} (h : Flat true c) :
    Flat b [.makeClosure name formals c] := by
  refine of_nil ?_ rfl
  change ∀ body ∈ c :: bodies c ++ [], _
  rw [List.append_nil, List.forall_mem_cons]
  exact ⟨h.2, h.1⟩

theorem flatten (h : ∀ c ∈ cs, Flat b c) : Flat b cs.flatten := by
  induction cs with
  | nil => exact plain rfl rfl
  | cons c cs ih =>
    exact (h c List.mem_cons_self).append (ih fun c hc => h c (List.mem_cons_of_mem _ hc))

theorem withTail {tail : List Code} (ht : Flat b tail) (h : ∀ c ∈ cs, Flat b c) :
    Flat b (Compiler.withTail tail cs) := by
  induction cs with
  | nil => exact plain rfl rfl
  | cons c cs ih =>
    rw [withTail_cons]
    exact ((h c List.mem_cons_self).append ht).append
      (ih fun c hc => h c (List.mem_cons_of_mem _ hc))

theorem removeLast (ht : Flat false [t]) (hne : cs ≠ []) (h : ∀ c ∈ cs, Flat false c) :
    Flat b (Compiler.removeLast (Compiler.withTail [t] cs)) := by
  have hall := withTail ht h
  rw [removeLast_withTail t hne] at hall
  exact hall.left.of_inner

end Flat

/-! ## Compiled code -/

mutual

theorem flat_expr : (e : Expr) → {b : Bool} → Grammatical b e → {istail : Bool} → {n m : ℕ} →
    {c : List Code} → compileExprM istail e n = some (c, m) → Flat b c
  | .variable _, _, _, _, _, _, _, h => by
    rw [(emits_variable.mp h).1]
    exact .plain rfl rfl
  | .quote _, _, _, _, _, _, _, h => by
    rw [(emits_quote.mp h).1]
    exact .plain rfl rfl
  | .selfEval _, _, _, _, _, _, _, h => by
    rw [(emits_selfEval.mp h).1]
    exact .plain rfl rfl
  | .procCall func args, _, hg, istail, _, _, _, h => by
    cases hs : builtinSym func with
    | some s =>
      obtain ⟨cs, hcs, rfl⟩ := (emits_builtin hs).mp h
      exact (Flat.append (.withTail (.plain rfl rfl) (flat_seq args hg.2 hcs))
        (.plain rfl rfl)).of_inner
    | none =>
      obtain ⟨cs, k, op, hcs, hop, rfl⟩ := (emits_procCall hs).mp h
      have hargs := Flat.withTail (.plain rfl rfl : Flat false [.push, .blankLn])
        (flat_seq args hg.2 hcs)
      have hfunc := flat_expr func hg.1 hop
      refine Flat.of_inner (((((Flat.append ?_ hargs).append hfunc).append (.plain rfl rfl)).append
        ?_).append (.plain rfl rfl))
      · cases istail <;> exact .plain rfl rfl
      · cases istail <;> exact .plain rfl rfl
  | .sequence _, _, hg, _, _, _, _, _ => hg.elim
  | .lambda _ body, _, hg, _, _, _, _, h => by
    obtain ⟨cs, hcs, rfl⟩ := emits_lambda.mp h
    exact .makeClosure ((Flat.flatten (flat_seq body hg hcs)).append (.plain rfl rfl))
  | .defvar name e, _, ⟨rfl, hg⟩, _, _, _, _, h => by
    obtain ⟨c, hc, rfl⟩ := emits_defvar.mp h
    exact (flat_expr e hg hc).of_inner.append ⟨nofun, rfl⟩
  | .defun name args body, _, ⟨rfl, hg⟩, _, _, _, _, h => by
    obtain ⟨cs, hcs, rfl⟩ := emits_defun.mp h
    have hheader : Flat true (header args) := .plain (bodies_header args) (newBinds_header args)
    have hbody := (hheader.append (.flatten (flat_seq body hg hcs))).append
      (.plain rfl rfl : Flat true [.leaveProc])
    exact (Flat.makeClosure hbody).append (⟨nofun, rfl⟩ : Flat true [.newBind name, .nop])
  | .defun2 name args rest body, _, ⟨rfl, hg⟩, _, _, _, _, h => by
    obtain ⟨cs, hcs, rfl⟩ := emits_defun2.mp h
    have hbody := (Flat.flatten (flat_seq body hg hcs)).append
      (.plain rfl rfl : Flat true [.leaveProc])
    exact (Flat.makeClosure hbody).append (⟨nofun, rfl⟩ : Flat true [.newBind name, .nop])
  | .assign _ e, _, hg, _, _, _, _, h => by
    obtain ⟨c, hc, rfl⟩ := emits_assign.mp h
    exact (flat_expr e hg hc).of_inner.append (.plain rfl rfl)
  | .branch test thenExp elseExp, _, hg, _, _, _, _, h => by
    obtain ⟨cTest, _, _, _, _, hTest, hThen, hElse, rfl⟩ := emits_branch.mp h
    exact (flat_expr test hg.1 hTest).of_inner.append
      (.ifTrue (flat_expr thenExp hg.2.1 hThen) (flat_expr elseExp hg.2.2 hElse))
  | .cond clauses, _, hg, _, _, _, _, h => by
    obtain ⟨c', hc', rfl⟩ := emits_cond.mp h
    exact (flat_clauses clauses hg hc').of_inner.append (.plain rfl rfl)
  | .and [], _, _, _, _, _, _, h => by
    rw [(emits_and_nil.mp h).1]
    exact .plain rfl rfl
  | .and (e :: es), _, hg, _, _, _, _, h => by
    obtain ⟨cs, k, hcs, -, rfl⟩ := emits_and.mp h
    exact (Flat.removeLast (.plain rfl rfl) (ne_nil_of_compileSeq hcs)
      (flat_seq (e :: es) hg hcs)).append (.plain rfl rfl)
  | .or [], _, _, _, _, _, _, h => by
    rw [(emits_or_nil.mp h).1]
    exact .plain rfl rfl
  | .or (e :: es), _, hg, _, _, _, _, h => by
    obtain ⟨cs, k, hcs, -, rfl⟩ := emits_or.mp h
    exact (Flat.removeLast (.plain rfl rfl) (ne_nil_of_compileSeq hcs)
      (flat_seq (e :: es) hg hcs)).append (.plain rfl rfl)

theorem flat_seq : (es : List Expr) → {b : Bool} → AllGrammatical b es → {istail : Bool} →
    {n m : ℕ} → {cs : List (List Code)} → compileSeq istail es n = some (cs, m) →
      ∀ c ∈ cs, Flat b c
  | [], _, _, _, _, _, _, h => by
    rw [(emits_seq_nil.mp h).1]
    exact nofun
  | e :: es, _, hg, _, _, _, _, h => by
    obtain ⟨c, _, cs, hc, hcs, rfl⟩ := emits_seq_cons.mp h
    exact List.forall_mem_cons.mpr ⟨flat_expr e hg.1 hc, flat_seq es hg.2 hcs⟩

theorem flat_clauses : (clauses : List (Expr × List Expr)) → ClausesGrammatical clauses →
    {istail : Bool} → {l n m : ℕ} → {c : List Code} →
      compileClauses istail l clauses n = some (c, m) → Flat false c
  | [], _, _, _, _, _, _, h => by
    rw [(emits_clauses_nil.mp h).1]
    exact .plain rfl rfl
  | (tst, seq) :: clauses, hg, _, l, _, _, _, h => by
    obtain ⟨t, _, cs, _, rest, ht, hcs, hrest, rfl⟩ := emits_clauses_cons.mp h
    have hblock := (Flat.flatten (flat_seq seq hg.2.1 hcs)).append
      (.plain rfl rfl : Flat false [.goto l])
    exact ((flat_expr tst hg.1 ht).append (.ifTrue hblock (.plain rfl rfl))).append
      (flat_clauses clauses hg.2.2 hrest)

end

/-- **New variables are found**, in a program that the parser can build and in all its procedures.
-/
theorem newBinds_eq_scanForNewbind {exps : List Expr} (hg : AllGrammatical true exps)
    (h : compile exps = some c) :
    newBinds c = scanForNewbind c ∧ ∀ body ∈ bodies c, newBinds body = scanForNewbind body := by
  obtain ⟨⟨c, m⟩, hcode, rfl⟩ := Option.map_eq_some_iff.mp h
  obtain ⟨cs, hcs, rfl⟩ := emits_sequence.mp hcode
  have hflat := Flat.flatten (flat_seq exps hg hcs)
  exact ⟨hflat.2, hflat.1⟩

end SchemeOs.Compiler
