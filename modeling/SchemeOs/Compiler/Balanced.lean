import SchemeOs.Compiler.Links

/-!
# Compiler/Balanced — the calls that the code has begun

A call that is not in tail position begins with `PushCont l` and is made by an `Apply` with the
label `l` behind it.  From any position to the end of the procedure, compiled code makes the calls
that have been begun there, the last one first, and makes a call in tail position only when there
are none.  It also agrees on how many operands are on the stack, if every call removes its own: it
is `Balanced`, through blocks and jumps.
-/

namespace SchemeOs.Compiler

/-- Instructions that begin and make no call, leave the stack alone and go on to the next one. -/
def Code.plain : Code → Bool
  | .fetchConst _ | .lookupVar _ | .label _ | .newBind _ | .reBind _ | .callBuiltin _ _
  | .accStack _ | .blankLn | .nop => true
  | _ => false

@[elab_as_elim]
theorem Code.plain_cases {motive : (i : Code) → i.plain = true → Prop}
    (fetchConst : ∀ d, motive (.fetchConst d) rfl) (lookupVar : ∀ x, motive (.lookupVar x) rfl)
    (label : ∀ l, motive (.label l) rfl) (newBind : ∀ x, motive (.newBind x) rfl)
    (reBind : ∀ x, motive (.reBind x) rfl)
    (callBuiltin : ∀ f argc, motive (.callBuiltin f argc) rfl)
    (accStack : ∀ n, motive (.accStack n) rfl) (blankLn : motive .blankLn rfl)
    (nop : motive .nop rfl) (i : Code) (hi : i.plain = true) : motive i hi := by
  cases i with
  | fetchConst d => exact fetchConst d
  | lookupVar x => exact lookupVar x
  | label l => exact label l
  | newBind x => exact newBind x
  | reBind x => exact reBind x
  | callBuiltin f argc => exact callBuiltin f argc
  | accStack n => exact accStack n
  | blankLn => exact blankLn
  | nop => exact nop
  | push | moveSp | makeClosure | leaveProc | apply | pushCont | ifTrue | ifFalse | goto => cases hi

/-- The code starts with a label. -/
def startsLabel : List Code → Bool
  | .label _ :: _ => true
  | _ => false

/-- What the code is the end of: a program, a procedure, or an expression not in tail position. -/
inductive Part where
  | program
  | procedure
  | expression
  deriving DecidableEq

/-- With `n` operands on the stack, the code from here to the end of the part makes the calls with
the labels and the operands below them `ls`, which have been begun, and otherwise only calls that it
begins itself, and tail calls. -/
inductive Balanced (prog : List Code) :
    Part → CompileTimeEnvt → ℕ → List (ℕ × ℕ) → List Code → Prop where
  | nil {part env} : part ≠ .procedure → Balanced prog part env 0 [] []
  | leaveProc {env k} : Balanced prog .procedure env 0 [] (.leaveProc :: k)
  | plain {part env n ls i k} : i.plain = true → Balanced prog part env n ls k →
      Balanced prog part env n ls (i :: k)
  | push {part env n ls k} : Balanced prog part env (n + 1) ls k →
      Balanced prog part env n ls (.push :: k)
  | moveSp {part env n ls k} (argc : ℕ) : Balanced prog part env n ls k →
      Balanced prog part env (n + argc) ls (.moveSp argc :: k)
  | makeClosure {part env n ls name formals body k} :
      Balanced prog .procedure (bodyEnvt env formals body) 0 [] body →
      Balanced prog part env n ls k →
        Balanced prog part env n ls (.makeClosure name formals body :: k)
  | ifTrue {part env n ls con alt k} : Balanced prog part env n ls (con ++ k) →
      Balanced prog part env n ls (alt ++ k) → Balanced prog part env n ls (.ifTrue con alt :: k)
  | ifFalse {part env n ls con alt k} : Balanced prog part env n ls (con ++ k) →
      Balanced prog part env n ls (alt ++ k) → Balanced prog part env n ls (.ifFalse con alt :: k)
  | goto {part env n ls l k k'} : findLabel l (topEnvt prog) [] prog = some (env, k') →
      Balanced prog part env n ls k' → Balanced prog part env n ls (.goto l :: k)
  | pushCont {part env n ls l k k'} : findLabel l (topEnvt prog) [] prog = some (env, k') →
      Balanced prog part env n ((l, n) :: ls) k → Balanced prog part env n ls (.pushCont l :: k)
  | call {part env n m ls l k} : findLabel l (topEnvt prog) [] prog = some (env, k) →
      Balanced prog part env m ls k →
        Balanced prog part env n ((l, m) :: ls) (.apply :: .label l :: k)
  | tailCall {part env n k} : part ≠ .expression → startsLabel k = false →
      Balanced prog part env n [] (.apply :: k)

variable {prog k : List Code} {part : Part} {env : CompileTimeEnvt} {n : ℕ} {ls : List (ℕ × ℕ)}

theorem Balanced.header (args : List Sym) (h : Balanced prog part env n ls k) :
    Balanced prog part env n ls (Compiler.header args ++ k) := by
  rw [Compiler.header]
  induction args.zipIdx with
  | nil => exact h
  | cons vi rest ih => exact .plain rfl (.plain rfl ih)

mutual

/-- **Compiled code is balanced** where what follows is; in tail position no call has been begun. -/
theorem balanced_expr : (e : Expr) → {env : CompileTimeEnvt} → {istail : Bool} → {n m : ℕ} →
    {c k : List Code} → {part : Part} → {d : ℕ} → {ls : List (ℕ × ℕ)} →
    compileExprM istail e n = some (c, m) → Linked prog env k c →
    (istail = true → ls = [] ∧ part ≠ .expression) → Balanced prog part env d ls k →
      Balanced prog part env d ls (c ++ k)
  | .variable _, _, _, _, _, _, _, _, _, _, h, _, _, hk => by
    obtain ⟨rfl, rfl⟩ := emits_variable.mp h
    exact .plain rfl hk
  | .quote _, _, _, _, _, _, _, _, _, _, h, _, _, hk => by
    obtain ⟨rfl, rfl⟩ := emits_quote.mp h
    exact .plain rfl hk
  | .selfEval _, _, _, _, _, _, _, _, _, _, h, _, _, hk => by
    obtain ⟨rfl, rfl⟩ := emits_selfEval.mp h
    exact .plain rfl hk
  | .procCall func args, _, istail, _, _, _, _, _, _, _, h, hlinked, hls, hk => by
    cases hs : builtinSym func with
    | some s =>
      obtain ⟨cs, hcs, rfl⟩ := (emits_builtin hs).mp h
      rw [linked_append] at hlinked
      rw [List.append_assoc]
      exact balanced_operands args hcs hlinked.1
        (.plain rfl (.moveSp _ (.plain rfl hk)))
    | none =>
      obtain ⟨cs, n₁, op, hcs, hop, rfl⟩ := (emits_procCall hs).mp h
      cases istail with
      | true =>
        rw [if_pos rfl, if_pos rfl, List.nil_append, List.append_nil, List.append_assoc,
          List.append_assoc, linked_append, linked_append] at hlinked
        rw [if_pos rfl, if_pos rfl, List.nil_append, List.append_nil, List.append_assoc,
          List.append_assoc, List.append_assoc, (hls rfl).1]
        refine balanced_operands args hcs ?_ (balanced_expr func hop ?_ nofun
          (.tailCall (hls rfl).2 rfl))
        · simpa using hlinked.1
        · simpa using hlinked.2.1
      | false =>
        rw [if_neg Bool.false_ne_true, if_neg Bool.false_ne_true, List.append_assoc,
          List.append_assoc, List.append_assoc, List.append_assoc, linked_append, linked_append,
          linked_append] at hlinked
        obtain ⟨-, hargs, hfunc, -, hlabel, -⟩ := hlinked
        rw [if_neg Bool.false_ne_true, if_neg Bool.false_ne_true, List.append_assoc,
          List.append_assoc, List.append_assoc, List.append_assoc, List.append_assoc]
        rw [LinkedIn] at hlabel
        refine .pushCont hlabel
          (balanced_operands args hcs ?_ (balanced_expr func hop ?_ nofun ?_))
        · simpa using hargs
        · simpa using hfunc
        · exact .call hlabel (.plain rfl hk)
  | .sequence es, _, _, _, _, _, _, _, _, _, h, hlinked, hls, hk => by
    obtain ⟨cs, hcs, rfl⟩ := emits_sequence.mp h
    exact balanced_seq es hcs hlinked hls hk
  | .lambda _ es, _, _, _, _, _, _, _, _, _, h, hlinked, _, hk => by
    obtain ⟨cs, hcs, rfl⟩ := emits_lambda.mp h
    rw [linked_singleton, LinkedIn, linked_append] at hlinked
    exact .makeClosure (balanced_seq es hcs hlinked.1 (fun _ => ⟨rfl, nofun⟩) .leaveProc) hk
  | .defvar _ e, _, _, _, _, _, _, _, _, _, h, hlinked, _, hk => by
    obtain ⟨c, hc, rfl⟩ := emits_defvar.mp h
    rw [linked_append] at hlinked
    rw [List.append_assoc]
    exact balanced_expr e hc hlinked.1 nofun (.plain rfl (.plain rfl hk))
  | .defun _ args es, _, _, _, _, _, _, _, _, _, h, hlinked, _, hk => by
    obtain ⟨cs, hcs, rfl⟩ := emits_defun.mp h
    rw [Linked, LinkedIn, linked_append, linked_append] at hlinked
    refine .makeClosure ?_ (.plain rfl (.plain rfl hk))
    have hbody : Balanced prog .procedure _ 0 [] (cs.flatten ++ ([.leaveProc] ++ [])) :=
      balanced_seq es hcs hlinked.1.1.2 (fun _ => ⟨rfl, nofun⟩) .leaveProc
    simpa using hbody.header args
  | .defun2 _ _ _ es, _, _, _, _, _, _, _, _, _, h, hlinked, _, hk => by
    obtain ⟨cs, hcs, rfl⟩ := emits_defun2.mp h
    rw [Linked, LinkedIn, linked_append] at hlinked
    exact .makeClosure (balanced_seq es hcs hlinked.1.1 (fun _ => ⟨rfl, nofun⟩) .leaveProc)
      (.plain rfl (.plain rfl hk))
  | .assign _ e, _, _, _, _, _, _, _, _, _, h, hlinked, _, hk => by
    obtain ⟨c, hc, rfl⟩ := emits_assign.mp h
    rw [linked_append] at hlinked
    rw [List.append_assoc]
    exact balanced_expr e hc hlinked.1 nofun (.plain rfl (.plain rfl hk))
  | .branch test thenExp elseExp, _, _, _, _, _, _, _, _, _, h, hlinked, hls, hk => by
    obtain ⟨cTest, _, cThen, _, cElse, hTest, hThen, hElse, rfl⟩ := emits_branch.mp h
    rw [linked_append, linked_singleton, LinkedIn] at hlinked
    obtain ⟨hlTest, hlThen, hlElse⟩ := hlinked
    rw [List.append_assoc]
    exact balanced_expr test hTest hlTest nofun (.ifTrue (balanced_expr thenExp hThen hlThen hls hk)
      (balanced_expr elseExp hElse hlElse hls hk))
  | .cond clauses, _, _, _, _, _, _, _, _, _, h, hlinked, hls, hk => by
    obtain ⟨c', hc', rfl⟩ := emits_cond.mp h
    rw [linked_append, Linked, linked_singleton] at hlinked
    rw [List.append_assoc]
    exact balanced_clauses clauses hc' hlinked.1 hlinked.2.2 hls hk
  | .and [], _, _, _, _, _, _, _, _, _, h, _, _, hk => by
    obtain ⟨rfl, rfl⟩ := emits_and_nil.mp h
    exact .plain rfl hk
  | .and (e :: es), _, _, _, _, _, k, _, _, ls, h, hlinked, hls, hk => by
    obtain ⟨cs, l, hcs, rfl, rfl⟩ := emits_and.mp h
    rw [linked_append, linked_singleton] at hlinked
    rw [List.append_assoc]
    refine balanced_until (e :: es) hcs hlinked.1 hls (fun k' hk' => ?_) hk
    exact .ifFalse (.goto hlinked.2 hk) hk'
  | .or [], _, _, _, _, _, _, _, _, _, h, _, _, hk => by
    obtain ⟨rfl, rfl⟩ := emits_or_nil.mp h
    exact .plain rfl hk
  | .or (e :: es), _, _, _, _, _, k, _, _, ls, h, hlinked, hls, hk => by
    obtain ⟨cs, l, hcs, rfl, rfl⟩ := emits_or.mp h
    rw [linked_append, linked_singleton] at hlinked
    rw [List.append_assoc]
    refine balanced_until (e :: es) hcs hlinked.1 hls (fun k' hk' => ?_) hk
    exact .ifTrue (.goto hlinked.2 hk) hk'

theorem balanced_seq : (es : List Expr) → {env : CompileTimeEnvt} → {istail : Bool} →
    {n m : ℕ} → {cs : List (List Code)} → {k : List Code} → {part : Part} → {d : ℕ} →
    {ls : List (ℕ × ℕ)} →
    compileSeq istail es n = some (cs, m) → Linked prog env k cs.flatten →
    (istail = true → ls = [] ∧ part ≠ .expression) → Balanced prog part env d ls k →
      Balanced prog part env d ls (cs.flatten ++ k)
  | [], _, _, _, _, _, _, _, _, _, h, _, _, hk => by
    obtain ⟨rfl, rfl⟩ := emits_seq_nil.mp h
    exact hk
  | e :: es, _, istail, _, _, _, _, _, _, ls, h, hlinked, hls, hk => by
    obtain ⟨c, _, cs, hc, hcs, rfl⟩ := emits_seq_cons.mp h
    rw [List.flatten_cons, linked_append] at hlinked
    rw [List.flatten_cons, List.append_assoc]
    refine balanced_expr e hc hlinked.1 (fun htail => ?_) (balanced_seq es hcs hlinked.2 hls hk)
    exact hls (Bool.and_eq_true_iff.mp htail).1

/-- Each operand of a call is pushed. -/
theorem balanced_operands : (es : List Expr) → {env : CompileTimeEnvt} → {n m : ℕ} →
    {cs : List (List Code)} → {k : List Code} → {part : Part} → {d : ℕ} → {ls : List (ℕ × ℕ)} →
    compileSeq false es n = some (cs, m) → Linked prog env k (withTail [.push, .blankLn] cs) →
    Balanced prog part env (d + es.length) ls k →
      Balanced prog part env d ls (withTail [.push, .blankLn] cs ++ k)
  | [], _, _, _, _, _, _, _, _, h, _, hk => by
    obtain ⟨rfl, rfl⟩ := emits_seq_nil.mp h
    exact hk
  | e :: es, _, _, _, _, _, _, d, ls, h, hlinked, hk => by
    obtain ⟨c, _, cs, hc, hcs, rfl⟩ := emits_seq_cons.mp h
    rw [withTail_cons, linked_append, linked_append] at hlinked
    rw [withTail_cons, List.append_assoc, List.append_assoc]
    rw [List.length_cons, Nat.add_comm es.length, ← Nat.add_assoc] at hk
    exact balanced_expr e hc hlinked.1.1 nofun
      (.push (.plain rfl (balanced_operands es hcs hlinked.2 hk)))

/-- The operands of `and` and `or`, with the test `t` after each but the last. -/
theorem balanced_until : (es : List Expr) → {env : CompileTimeEnvt} → {istail : Bool} →
    {n m l : ℕ} → {cs : List (List Code)} → {k : List Code} → {t : Code} → {part : Part} →
    {d : ℕ} → {ls : List (ℕ × ℕ)} →
    compileSeq istail es n = some (cs, m) →
    Linked prog env ([.label l] ++ k) (removeLast (withTail [t] cs)) →
    (istail = true → ls = [] ∧ part ≠ .expression) →
    (∀ k', Balanced prog part env d ls k' → Balanced prog part env d ls (t :: k')) →
    Balanced prog part env d ls k →
      Balanced prog part env d ls (removeLast (withTail [t] cs) ++ ([.label l] ++ k))
  | [], _, _, _, _, _, _, _, _, _, _, _, h, _, _, _, hk => by
    obtain ⟨rfl, rfl⟩ := emits_seq_nil.mp h
    exact .plain rfl hk
  | e :: es, _, istail, _, _, _, _, _, _, part, _, ls, h, hlinked, hls, ht, hk => by
    obtain ⟨c, _, cs, hc, hcs, rfl⟩ := emits_seq_cons.mp h
    rw [removeLast_withTail_cons] at hlinked ⊢
    have hlast : (istail && es.isEmpty) = true → ls = [] ∧ part ≠ .expression :=
      fun htail => hls (Bool.and_eq_true_iff.mp htail).1
    by_cases hnil : cs = []
    · rw [if_pos hnil] at hlinked ⊢
      exact balanced_expr e hc hlinked hlast (.plain rfl hk)
    · rw [if_neg hnil, linked_append, Linked] at hlinked
      rw [if_neg hnil, List.append_assoc]
      exact balanced_expr e hc hlinked.1 hlast (ht _ (balanced_until es hcs hlinked.2.2 hls ht hk))

/-- The clauses of `cond`, with the label `l` behind them. -/
theorem balanced_clauses : (clauses : List (Expr × List Expr)) → {env : CompileTimeEnvt} →
    {istail : Bool} → {l n m : ℕ} → {c k : List Code} → {part : Part} → {d : ℕ} →
    {ls : List (ℕ × ℕ)} →
    compileClauses istail l clauses n = some (c, m) →
    Linked prog env ([.fetchConst .void, .label l] ++ k) c → LinkedIn prog env k (.label l) →
    (istail = true → ls = [] ∧ part ≠ .expression) → Balanced prog part env d ls k →
      Balanced prog part env d ls (c ++ ([.fetchConst .void, .label l] ++ k))
  | [], _, _, _, _, _, _, _, _, _, _, h, _, _, _, hk => by
    obtain ⟨rfl, rfl⟩ := emits_clauses_nil.mp h
    exact .plain rfl (.plain rfl hk)
  | (tst, seq) :: clauses, _, _, l, _, _, _, k, _, _, ls, h, hlinked, hlabel, hls, hk => by
    obtain ⟨c, _, cs, _, rest, hc, hcs, hrest, rfl⟩ := emits_clauses_cons.mp h
    rw [linked_append, linked_append, linked_singleton, LinkedIn, linked_append] at hlinked
    obtain ⟨⟨hlTst, ⟨hlSeq, -⟩, -⟩, hlRest⟩ := hlinked
    have hnext := balanced_clauses clauses hrest hlRest hlabel hls hk
    rw [List.append_assoc, List.append_assoc]
    refine balanced_expr tst hc hlTst nofun (.ifTrue ?_ hnext)
    rw [List.append_assoc]
    exact balanced_seq seq hcs hlSeq hls (.goto hlabel hk)

end

/-- **Compiled programs are balanced.** -/
theorem balanced_compile {exps : List Expr} (h : compile exps = some prog) :
    Balanced prog .program (topEnvt prog) 0 [] prog := by
  have hlinked := linked_compile h
  obtain ⟨⟨code, m⟩, hcode, rfl⟩ := Option.map_eq_some_iff.mp h
  have hcompiled : Balanced code .program (topEnvt code) 0 [] (code ++ []) :=
    balanced_expr _ hcode hlinked (fun _ => ⟨rfl, nofun⟩) (.nil nofun)
  rwa [List.append_nil] at hcompiled

end SchemeOs.Compiler
