import SchemeOs.Compiler.Balanced

/-!
# Compiler/Calls — the calls in compiled code

A call that is not in tail position is begun by `PushCont l` and made by an `Apply` with the label
`l` behind it; a call in tail position is an `Apply` with no label.  The code from any position to
the end of its procedure makes the calls that are begun there, the last one first: it is `Balanced`.
-/

namespace SchemeOs.Compiler

variable {prog c k : List Code} {cs : List (List Code)} {env : CompileTimeEnvt} {ls : List ℕ}

/-! ## Tail position -/

mutual

/-- The closure calls in an expression, in the order of their code, and whether each is in tail
position: `istail` says whether the expression is. -/
def tailCalls (istail : Bool) : Expr → List Bool
  | .procCall func args =>
    tailCallsSeq false args ++
      if (builtinSym func).isSome then [] else tailCalls false func ++ [istail]
  | .sequence exps => tailCallsSeq istail exps
  | .lambda _ body => tailCallsSeq true body
  | .defvar _ exp => tailCalls false exp
  | .defun _ _ body => tailCallsSeq true body
  | .defun2 _ _ _ body => tailCallsSeq true body
  | .assign _ exp => tailCalls false exp
  | .branch test thenExp elseExp =>
    tailCalls false test ++ (tailCalls istail thenExp ++ tailCalls istail elseExp)
  | .cond clauses => tailCallsClauses istail clauses
  | .and exps => tailCallsSeq istail exps
  | .or exps => tailCallsSeq istail exps
  | _ => []

/-- `tailCalls`, for a sequence: the last expression is in tail position if the sequence is. -/
def tailCallsSeq (istail : Bool) : List Expr → List Bool
  | [] => []
  | exp :: exps => tailCalls (istail && exps.isEmpty) exp ++ tailCallsSeq istail exps

/-- `tailCalls`, for clauses. -/
def tailCallsClauses (istail : Bool) : List (Expr × List Expr) → List Bool
  | [] => []
  | (tst, seq) :: clauses =>
    tailCalls false tst ++ (tailCallsSeq istail seq ++ tailCallsClauses istail clauses)

end


mutual

/-- The `Apply`s in the code, and whether each has no label behind it. -/
def applies : List Code → List Bool
  | [] => []
  | c :: cs => appliesIn (startsLabel cs) c ++ applies cs

/-- `applies`, for an instruction, with a label behind it or not. -/
def appliesIn (labelled : Bool) : Code → List Bool
  | .apply => [!labelled]
  | .ifTrue con alt => applies con ++ applies alt
  | .ifFalse con alt => applies con ++ applies alt
  | .makeClosure _ _ body => applies body
  | _ => []

end

/-- The code does not end with an `Apply`. -/
def Settled (c : List Code) : Prop := c.getLast? ≠ some .apply

theorem Settled.nil : Settled [] := by simp [Settled]

theorem Settled.append {c c' : List Code} (h : Settled c) (h' : Settled c') :
    Settled (c ++ c') := by
  rw [Settled, List.getLast?_append]
  cases hlast : c'.getLast? with
  | none => simpa [Settled] using h
  | some i =>
    rw [Settled, hlast] at h'
    simpa using h'

theorem settled_concat (c : List Code) {i : Code} (h : i ≠ .apply) : Settled (c ++ [i]) := by
  rw [Settled, List.getLast?_concat]
  exact fun hsome => h (Option.some.inj hsome)

theorem Settled.flatten (h : ∀ c ∈ cs, Settled c) : Settled cs.flatten := by
  induction cs with
  | nil => exact .nil
  | cons c cs ih =>
    rw [List.forall_mem_cons] at h
    exact h.1.append (ih h.2)

theorem applies_append {c : List Code} (h : Settled c) (c' : List Code) :
    applies (c ++ c') = applies c ++ applies c' := by
  induction c with
  | nil => rfl
  | cons i c ih =>
    cases c with
    | nil =>
      have hi : ∀ b, appliesIn b i = appliesIn false i := by
        intro b
        cases i with
        | apply => exact absurd rfl h
        | _ => rfl
      simp [applies, hi (startsLabel c'), hi (startsLabel [])]
    | cons j c =>
      have hc : Settled (j :: c) := by simpa [Settled] using h
      have hstart : startsLabel (j :: c ++ c') = startsLabel (j :: c) := by cases j <;> rfl
      rw [List.cons_append, applies, applies, ih hc, hstart, List.append_assoc]

theorem applies_withTail {tail : List Code} (ht : Settled tail) (hnil : applies tail = []) :
    (∀ c ∈ cs, Settled c) → applies (withTail tail cs) = applies cs.flatten ∧
      Settled (withTail tail cs) := by
  induction cs with
  | nil => exact fun _ => ⟨rfl, .nil⟩
  | cons c cs ih =>
    rw [List.forall_mem_cons]
    rintro ⟨hc, hcs⟩
    obtain ⟨happlies, hsettled⟩ := ih hcs
    rw [withTail_cons, List.flatten_cons, applies_append (hc.append ht), applies_append hc,
      applies_append hc, hnil, List.append_nil, happlies]
    exact ⟨rfl, (hc.append ht).append hsettled⟩

/-- The operands of a call, each pushed. -/
theorem applies_operands (h : ∀ c ∈ cs, Settled c) :
    applies (withTail [.push, .blankLn] cs) = applies cs.flatten ∧
      Settled (withTail [.push, .blankLn] cs) :=
  applies_withTail (by simp [Settled]) rfl h

theorem applies_removeLast {t : Code} (ht : Settled [t]) (hnil : applies [t] = []) :
    (∀ c ∈ cs, Settled c) → applies (removeLast (withTail [t] cs)) = applies cs.flatten ∧
      Settled (removeLast (withTail [t] cs)) := by
  induction cs with
  | nil => exact fun _ => ⟨rfl, .nil⟩
  | cons c cs ih =>
    rw [List.forall_mem_cons]
    rintro ⟨hc, hcs⟩
    obtain ⟨happlies, hsettled⟩ := ih hcs
    rw [removeLast_withTail_cons, List.flatten_cons, applies_append hc]
    split_ifs with hlast
    · rw [hlast]
      exact ⟨(List.append_nil _).symm, hc⟩
    · rw [List.append_cons, applies_append (hc.append ht), applies_append hc, hnil,
        List.append_nil, happlies]
      exact ⟨rfl, (hc.append ht).append hsettled⟩

theorem applies_header (args : List Sym) : applies (header args) = [] ∧ Settled (header args) := by
  have hbind : ∀ vi : Sym × ℕ, Settled [.accStack vi.2, .reBind vi.1] := fun _ => by simp [Settled]
  rw [header]
  induction args.zipIdx with
  | nil => exact ⟨rfl, .nil⟩
  | cons vi rest ih =>
    rw [List.flatMap_cons, applies_append (hbind vi), ih.1]
    exact ⟨rfl, (hbind vi).append ih.2⟩

/-- The code of a body, with `LeaveProc` behind it. -/
theorem applies_body (head : List Code) {body : List Code}
    (hhead : applies head = [] ∧ Settled head)
    (hbody : Settled body) : applies (head ++ body ++ [.leaveProc]) = applies body := by
  rw [applies_append (hhead.2.append hbody), applies_append hhead.2, hhead.1]
  exact List.append_nil _

mutual

/-- **The calls in compiled code** have no label exactly if they are in tail position. -/
theorem applies_expr : (e : Expr) → {istail : Bool} → {n m : ℕ} → {c : List Code} →
    compileExprM istail e n = some (c, m) → applies c = tailCalls istail e ∧ Settled c
  | .variable _, _, _, _, _, h => by
    rw [(emits_variable.mp h).1]
    exact ⟨rfl, by simp [Settled]⟩
  | .quote _, _, _, _, _, h => by
    rw [(emits_quote.mp h).1]
    exact ⟨rfl, by simp [Settled]⟩
  | .selfEval _, _, _, _, _, h => by
    rw [(emits_selfEval.mp h).1]
    exact ⟨rfl, by simp [Settled]⟩
  | .procCall func args, istail, _, _, _, h => by
    rw [tailCalls]
    cases hs : builtinSym func with
    | some s =>
      obtain ⟨cs, hcs, rfl⟩ := (emits_builtin hs).mp h
      obtain ⟨happlies, hsettled⟩ := applies_seq args hcs
      obtain ⟨hwith, hwith'⟩ := applies_operands hsettled
      refine ⟨?_, hwith'.append (by simp [Settled])⟩
      rw [applies_append hwith', hwith, happlies]
      rfl
    | none =>
      obtain ⟨cs, k, op, hcs, hop, rfl⟩ := (emits_procCall hs).mp h
      obtain ⟨happlies, hsettled⟩ := applies_seq args hcs
      obtain ⟨hwith, hwith'⟩ := applies_operands hsettled
      obtain ⟨hop₁, hop₂⟩ := applies_expr func hop
      have hcall : applies (withTail [.push, .blankLn] cs ++ op) =
          tailCallsSeq false args ++ tailCalls false func := by
        rw [applies_append hwith', hwith, happlies, hop₁]
      refine ⟨?_, settled_concat _ (by simp)⟩
      cases istail with
      | true =>
        rw [if_pos rfl, if_pos rfl, List.nil_append, List.append_assoc, List.append_assoc,
          applies_append (hwith'.append hop₂), hcall, List.append_assoc]
        rfl
      | false =>
        rw [if_neg Bool.false_ne_true, if_neg Bool.false_ne_true, List.append_assoc,
          List.append_assoc, List.append_assoc, List.append_assoc, List.singleton_append, applies,
          ← List.append_assoc (withTail _ cs), applies_append (hwith'.append hop₂), hcall]
        exact List.append_assoc _ _ _
  | .sequence es, _, _, _, _, h => by
    obtain ⟨cs, hcs, rfl⟩ := emits_sequence.mp h
    exact ⟨(applies_seq es hcs).1, .flatten (applies_seq es hcs).2⟩
  | .lambda _ es, _, _, _, _, h => by
    obtain ⟨cs, hcs, rfl⟩ := emits_lambda.mp h
    obtain ⟨happlies, hsettled⟩ := applies_seq es hcs
    refine ⟨?_, by simp [Settled]⟩
    rw [tailCalls, ← happlies, ← applies_body [] ⟨rfl, .nil⟩ (.flatten hsettled)]
    exact List.append_nil _
  | .defvar _ e, _, _, _, _, h => by
    obtain ⟨c, hc, rfl⟩ := emits_defvar.mp h
    obtain ⟨happlies, hsettled⟩ := applies_expr e hc
    rw [tailCalls, applies_append hsettled, happlies]
    exact ⟨List.append_nil _, hsettled.append (by simp [Settled])⟩
  | .defun _ args es, _, _, _, _, h => by
    obtain ⟨cs, hcs, rfl⟩ := emits_defun.mp h
    obtain ⟨happlies, hsettled⟩ := applies_seq es hcs
    refine ⟨?_, by simp [Settled]⟩
    rw [tailCalls, ← happlies, ← applies_body (header args) (applies_header args)
      (.flatten hsettled)]
    exact List.append_nil _
  | .defun2 _ _ _ es, _, _, _, _, h => by
    obtain ⟨cs, hcs, rfl⟩ := emits_defun2.mp h
    obtain ⟨happlies, hsettled⟩ := applies_seq es hcs
    refine ⟨?_, by simp [Settled]⟩
    rw [tailCalls, ← happlies, ← applies_body [] ⟨rfl, .nil⟩ (.flatten hsettled)]
    exact List.append_nil _
  | .assign _ e, _, _, _, _, h => by
    obtain ⟨c, hc, rfl⟩ := emits_assign.mp h
    obtain ⟨happlies, hsettled⟩ := applies_expr e hc
    rw [tailCalls, applies_append hsettled, happlies]
    exact ⟨List.append_nil _, hsettled.append (by simp [Settled])⟩
  | .branch test thenExp elseExp, _, _, _, _, h => by
    obtain ⟨_, _, _, _, _, hTest, hThen, hElse, rfl⟩ := emits_branch.mp h
    obtain ⟨happlies, hsettled⟩ := applies_expr test hTest
    refine ⟨?_, hsettled.append (by simp [Settled])⟩
    rw [tailCalls, applies_append hsettled, happlies, ← (applies_expr thenExp hThen).1,
      ← (applies_expr elseExp hElse).1]
    exact congrArg _ (List.append_nil _)
  | .cond clauses, _, _, _, _, h => by
    obtain ⟨c', hc', rfl⟩ := emits_cond.mp h
    obtain ⟨happlies, hsettled⟩ := applies_clauses clauses hc'
    rw [tailCalls, applies_append hsettled, happlies]
    exact ⟨List.append_nil _, hsettled.append (by simp [Settled])⟩
  | .and [], _, _, _, _, h => by
    rw [(emits_and_nil.mp h).1]
    exact ⟨rfl, by simp [Settled]⟩
  | .and (e :: es), _, _, _, _, h => by
    obtain ⟨cs, k, hcs, rfl, rfl⟩ := emits_and.mp h
    obtain ⟨happlies, hsettled⟩ := applies_seq (e :: es) hcs
    obtain ⟨hlast, hlast'⟩ := applies_removeLast (t := .ifFalse [.goto k] []) (by simp [Settled])
      rfl hsettled
    rw [tailCalls, applies_append hlast', hlast, happlies]
    exact ⟨List.append_nil _, hlast'.append (by simp [Settled])⟩
  | .or [], _, _, _, _, h => by
    rw [(emits_or_nil.mp h).1]
    exact ⟨rfl, by simp [Settled]⟩
  | .or (e :: es), _, _, _, _, h => by
    obtain ⟨cs, k, hcs, rfl, rfl⟩ := emits_or.mp h
    obtain ⟨happlies, hsettled⟩ := applies_seq (e :: es) hcs
    obtain ⟨hlast, hlast'⟩ := applies_removeLast (t := .ifTrue [.goto k] []) (by simp [Settled])
      rfl hsettled
    rw [tailCalls, applies_append hlast', hlast, happlies]
    exact ⟨List.append_nil _, hlast'.append (by simp [Settled])⟩

theorem applies_seq : (es : List Expr) → {istail : Bool} → {n m : ℕ} → {cs : List (List Code)} →
    compileSeq istail es n = some (cs, m) →
      applies cs.flatten = tailCallsSeq istail es ∧ ∀ c ∈ cs, Settled c
  | [], _, _, _, _, h => by
    rw [(emits_seq_nil.mp h).1]
    exact ⟨rfl, fun _ hc => absurd hc List.not_mem_nil⟩
  | e :: es, _, _, _, _, h => by
    obtain ⟨c, _, cs, hc, hcs, rfl⟩ := emits_seq_cons.mp h
    obtain ⟨happlies, hsettled⟩ := applies_expr e hc
    obtain ⟨happlies', hsettled'⟩ := applies_seq es hcs
    rw [List.flatten_cons, applies_append hsettled, happlies, happlies', tailCallsSeq]
    exact ⟨rfl, List.forall_mem_cons.mpr ⟨hsettled, hsettled'⟩⟩

theorem applies_clauses : (clauses : List (Expr × List Expr)) → {istail : Bool} → {l n m : ℕ} →
    {c : List Code} → compileClauses istail l clauses n = some (c, m) →
      applies c = tailCallsClauses istail clauses ∧ Settled c
  | [], _, _, _, _, _, h => by
    rw [(emits_clauses_nil.mp h).1]
    exact ⟨rfl, .nil⟩
  | (tst, seq) :: clauses, _, l, _, _, _, h => by
    obtain ⟨c, _, cs, _, rest, hc, hcs, hrest, rfl⟩ := emits_clauses_cons.mp h
    obtain ⟨htst, hsettled⟩ := applies_expr tst hc
    obtain ⟨hseq, hsettled'⟩ := applies_seq seq hcs
    obtain ⟨hclauses, hsettled''⟩ := applies_clauses clauses hrest
    have hblock : Settled (c ++ [.ifTrue (cs.flatten ++ [.goto l]) []]) :=
      hsettled.append (by simp [Settled])
    refine ⟨?_, hblock.append hsettled''⟩
    rw [applies_append hblock, applies_append hsettled, htst, hclauses, tailCallsClauses, applies,
      appliesIn, applies_append (.flatten hsettled'), hseq]
    simp [applies, appliesIn]

end

end SchemeOs.Compiler
