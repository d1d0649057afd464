import SchemeOs.Compiler.Definitions
import SchemeOs.Compiler.Labels
import SchemeOs.Compiler.Scmlex

/-!
# Compiler/Identifiers — which labels C accepts

The names of procedures reach the labels unchanged, while an identifier of Scheme may contain many
characters that one of C may not.  The labels of a program are identifiers of C exactly when the
names of its procedures consist of letters, digits and underscores (`labels_identifiers_iff`).
-/

namespace SchemeOs.Compiler

open CFile

variable {fuel n m : ℕ} {s t u : CompileTimeState} {w : List Event} {out : List Text}
  {c c' : List Code}
  {tail : List Code} {cs : List (List Code)}

/-! ## Procedures

The names of the procedures that a program defines, in the program and in its code. -/

mutual

/-- The names of the procedures that an expression defines, at any depth. -/
def procedures : Expr → List Text
  | .procCall func args => proceduresSeq args ++ procedures func
  | .sequence exps => proceduresSeq exps
  | .lambda _ body => proceduresSeq body
  | .defvar _ exp => procedures exp
  | .defun name _ body => procedureName name ++ proceduresSeq body
  | .defun2 name _ _ body => procedureName name ++ proceduresSeq body
  | .branch test thenExp elseExp => procedures test ++ (procedures thenExp ++ procedures elseExp)
  | .assign _ exp => procedures exp
  | .cond clauses => proceduresClauses clauses
  | .and exps => proceduresSeq exps
  | .or exps => proceduresSeq exps
  | _ => []

/-- `procedures`, for a sequence. -/
def proceduresSeq : List Expr → List Text
  | [] => []
  | exp :: exps => procedures exp ++ proceduresSeq exps

/-- `procedures`, for the tests and bodies of clauses. -/
def proceduresClauses : List (Expr × List Expr) → List Text
  | [] => []
  | (tst, seq) :: clauses => procedures tst ++ (proceduresSeq seq ++ proceduresClauses clauses)

end

@[simp] theorem closures_append (c c' : List Code) :
    closures (c ++ c') = closures c ++ closures c' := by
  induction c with
  | nil => rfl
  | cons i c ih => rw [List.cons_append, closures, closures, ih, List.append_assoc]

theorem closures_withTail (ht : closures tail = []) :
    closures (withTail tail cs) = closures cs.flatten :=
  collect_withTail closures_append rfl ht

theorem closures_removeLast {i : Code} (ht : closures [i] = []) (h : cs ≠ []) :
    closures (removeLast (withTail [i] cs)) = closures cs.flatten :=
  collect_removeLast closures_append rfl ht h

theorem closures_header (args : List Sym) : closures (header args) = [] := by
  rw [header]
  induction args.zipIdx with
  | nil => rfl
  | cons vi rest ih =>
    rw [List.flatMap_cons, closures_append, ih]
    rfl

/-- A builtin operator defines nothing. -/
theorem procedures_builtin {e : Expr} {x : Sym} (h : builtinSym e = some x) :
    procedures e = [] := by
  unfold builtinSym at h
  split at h
  · rfl
  · cases h

mutual

/-- **The procedures of the code** are those of the expression. -/
theorem closures_expr : (e : Expr) → {istail : Bool} → {n m : ℕ} → {c : List Code} →
    compileExprM istail e n = some (c, m) → closures c = procedures e
  | .variable _, _, _, _, _, h => by
    rw [(emits_variable.mp h).1]
    rfl
  | .quote _, _, _, _, _, h => by
    rw [(emits_quote.mp h).1]
    rfl
  | .selfEval _, _, _, _, _, h => by
    rw [(emits_selfEval.mp h).1]
    rfl
  | .procCall func args, istail, _, _, _, h => by
    cases hs : builtinSym func with
    | some s =>
      obtain ⟨cs, hcs, rfl⟩ := (emits_builtin hs).mp h
      rw [closures_append, closures_withTail rfl, closures_seq args hcs, procedures,
        procedures_builtin hs]
      rfl
    | none =>
      obtain ⟨cs, k, op, hcs, hop, rfl⟩ := (emits_procCall hs).mp h
      have htail : closures [.push, .blankLn] = [] := rfl
      simp only [closures_append, closures_withTail htail, closures_seq args hcs,
        closures_expr func hop]
      cases istail <;> simp [procedures, closures, closuresIn]
  | .sequence es, _, _, _, _, h => by
    obtain ⟨cs, hcs, rfl⟩ := emits_sequence.mp h
    exact closures_seq es hcs
  | .lambda _ body, _, _, _, _, h => by
    obtain ⟨cs, hcs, rfl⟩ := emits_lambda.mp h
    simp [closures, closuresIn, procedureName, procedures, closures_seq body hcs]
  | .defvar _ e, _, _, _, _, h => by
    obtain ⟨c, hc, rfl⟩ := emits_defvar.mp h
    simp [closures, closuresIn, procedures, closures_expr e hc]
  | .defun _ args body, _, _, _, _, h => by
    obtain ⟨cs, hcs, rfl⟩ := emits_defun.mp h
    simp [closures, closuresIn, procedures, closures_header, closures_seq body hcs]
  | .defun2 _ _ _ body, _, _, _, _, h => by
    obtain ⟨cs, hcs, rfl⟩ := emits_defun2.mp h
    simp [closures, closuresIn, procedures, closures_seq body hcs]
  | .assign _ e, _, _, _, _, h => by
    obtain ⟨c, hc, rfl⟩ := emits_assign.mp h
    simp [closures, closuresIn, procedures, closures_expr e hc]
  | .branch test thenExp elseExp, _, _, _, _, h => by
    obtain ⟨cTest, _, _, _, _, hTest, hThen, hElse, rfl⟩ := emits_branch.mp h
    simp [closures, closuresIn, procedures, closures_expr test hTest, closures_expr thenExp hThen,
      closures_expr elseExp hElse]
  | .cond clauses, _, _, _, _, h => by
    obtain ⟨c', hc', rfl⟩ := emits_cond.mp h
    simp [closures, closuresIn, procedures, closures_clauses clauses hc']
  | .and [], _, _, _, _, h => by
    rw [(emits_and_nil.mp h).1]
    rfl
  | .and (e :: es), _, _, _, _, h => by
    obtain ⟨cs, k, hcs, -, rfl⟩ := emits_and.mp h
    rw [closures_append, closures_removeLast rfl (ne_nil_of_compileSeq hcs),
      closures_seq (e :: es) hcs]
    simp [closures, closuresIn, procedures]
  | .or [], _, _, _, _, h => by
    rw [(emits_or_nil.mp h).1]
    rfl
  | .or (e :: es), _, _, _, _, h => by
    obtain ⟨cs, k, hcs, -, rfl⟩ := emits_or.mp h
    rw [closures_append, closures_removeLast rfl (ne_nil_of_compileSeq hcs),
      closures_seq (e :: es) hcs]
    simp [closures, closuresIn, procedures]

theorem closures_seq : (es : List Expr) → {istail : Bool} → {n m : ℕ} →
    {cs : List (List Code)} → compileSeq istail es n = some (cs, m) →
      closures cs.flatten = proceduresSeq es
  | [], _, _, _, _, h => by
    rw [(emits_seq_nil.mp h).1]
    rfl
  | e :: es, _, _, _, _, h => by
    obtain ⟨c, _, cs, hc, hcs, rfl⟩ := emits_seq_cons.mp h
    rw [List.flatten_cons, closures_append, closures_expr e hc, closures_seq es hcs]
    rfl

theorem closures_clauses : (clauses : List (Expr × List Expr)) → {istail : Bool} →
    {l n m : ℕ} → {c : List Code} → compileClauses istail l clauses n = some (c, m) →
      closures c = proceduresClauses clauses
  | [], _, _, _, _, _, h => by
    rw [(emits_clauses_nil.mp h).1]
    rfl
  | (tst, seq) :: clauses, _, _, _, _, _, h => by
    obtain ⟨t, _, cs, _, rest, ht, hcs, hrest, rfl⟩ := emits_clauses_cons.mp h
    simp [closures, closuresIn, proceduresClauses, closures_expr tst ht, closures_seq seq hcs,
      closures_clauses clauses hrest]

end

/-! ## The names in a trace

Each of them gives a label. -/

mutual

/-- Every procedure gets a function. -/
theorem funcLabel_of_mem : (c : List Code) → {s t : CompileTimeState} → {w : List Event} →
    {out : List Text} → (CFile.convSequence fuel c).run s = (some (out, t), w) →
      ∀ f ∈ closures c, ∃ k, .funcLabel (funcLabel f k) ∈ w
  | [], _, _, _, _, _ => nofun
  | i :: c, _, _, _, _, h => by
    obtain ⟨_, u, _, _, _, hi, hc, -, rfl⟩ := convSequence_cons_run.mp h
    rw [closures, List.forall_mem_append]
    refine ⟨fun f hf => ?_, fun f hf => ?_⟩
    · obtain ⟨k, hk⟩ := funcLabel_of_mem_in i hi f hf
      exact ⟨k, List.mem_append_left _ hk⟩
    · obtain ⟨k, hk⟩ := funcLabel_of_mem c hc f hf
      exact ⟨k, List.mem_append_right _ (List.mem_cons_of_mem _ hk)⟩

theorem funcLabel_of_mem_in : (i : Code) → {s t : CompileTimeState} → {w : List Event} →
    {out : List Text} → (CFile.instr2c fuel i).run s = (some (out, t), w) →
      ∀ f ∈ closuresIn i, ∃ k, .funcLabel (funcLabel f k) ∈ w
  | .ifTrue con alt, _, _, _, _, h => by
    obtain ⟨_, u, _, _, _, hcon, halt, rfl⟩ := branches_run h
    rw [closuresIn, List.forall_mem_append]
    refine ⟨fun f hf => ?_, fun f hf => ?_⟩
    · obtain ⟨k, hk⟩ := funcLabel_of_mem con hcon f hf
      exact ⟨k, List.mem_append_left _ hk⟩
    · obtain ⟨k, hk⟩ := funcLabel_of_mem alt halt f hf
      exact ⟨k, List.mem_append_right _ hk⟩
  | .ifFalse con alt, _, _, _, _, h => by
    obtain ⟨_, u, _, _, _, hcon, halt, rfl⟩ := branches_run h
    rw [closuresIn, List.forall_mem_append]
    refine ⟨fun f hf => ?_, fun f hf => ?_⟩
    · obtain ⟨k, hk⟩ := funcLabel_of_mem con hcon f hf
      exact ⟨k, List.mem_append_left _ hk⟩
    · obtain ⟨k, hk⟩ := funcLabel_of_mem alt halt f hf
      exact ⟨k, List.mem_append_right _ hk⟩
  | .makeClosure (.sym name) (.args args) body, _, _, _, _, h => by
    obtain ⟨code, u, w₁, hbody, -, rfl⟩ := makeClosure_run h
    rw [closuresIn, procedureName, List.singleton_append, List.forall_mem_cons]
    refine ⟨⟨u.1.funcLabel, List.mem_append_right _ List.mem_cons_self⟩, fun f hf => ?_⟩
    obtain ⟨k, hk⟩ := funcLabel_of_mem body hbody f hf
    exact ⟨k, List.mem_append_left _ hk⟩
  | .makeClosure .nil _ _, _, _, _, _, h => nomatch (line_run h).1
  | .makeClosure (.sym _) (.args2 _ _) _, _, _, _, _, h => nomatch (line_run h).1
  | .fetchConst _, _, _, _, _, _ => nofun
  | .lookupVar _, _, _, _, _, _ => nofun
  | .label _, _, _, _, _, _ => nofun
  | .newBind _, _, _, _, _, _ => nofun
  | .reBind _, _, _, _, _, _ => nofun
  | .leaveProc, _, _, _, _, _ => nofun
  | .apply, _, _, _, _, _ => nofun
  | .callBuiltin _ _, _, _, _, _, _ => nofun
  | .pushCont _, _, _, _, _, _ => nofun
  | .push, _, _, _, _, _ => nofun
  | .moveSp _, _, _, _, _, _ => nofun
  | .accStack _, _, _, _, _, _ => nofun
  | .goto _, _, _, _, _, _ => nofun
  | .blankLn, _, _, _, _, _ => nofun
  | .nop, _, _, _, _, _ => nofun

end

/-! ## Identifiers of C -/

/-- A character in an identifier of C. -/
def cIdentChar (c : Char) : Bool := c.isAlphanum || c = '_'

/-- An identifier of C. -/
def CIdentifier : Text → Prop
  | [] => False
  | c :: l => (c.isAlpha ∨ c = '_') ∧ ∀ d ∈ l, cIdentChar d

theorem cIdentChar_showInt (n : ℕ) : ∀ d ∈ showInt n, cIdentChar d := by
  intro d hd
  rw [cIdentChar, Char.isAlphanum, Nat.isDigit_of_mem_toDigits (by omega) (by omega) hd]
  simp

/-- A label is an identifier of C when its name has no other characters. -/
theorem cIdentifier_text {l : Label} (h : l.Names fun f => ∀ d ∈ f, cIdentChar d) :
    CIdentifier l.text := by
  have hfixed : ∀ p ∈ "Closure".toList :: constTypes, p.all cIdentChar := by decide
  have hscm : ∀ d ∈ "_scm_".toList, cIdentChar d := List.all_eq_true.mp (by decide)
  have hmark : ∀ d ∈ ['_'], cIdentChar d := List.all_eq_true.mp (by decide)
  have hjoin : ∀ {l l' : Text}, (∀ d ∈ l, cIdentChar d) → (∀ d ∈ l', cIdentChar d) →
      ∀ d ∈ l ++ l', cIdentChar d := fun h h' d hd => (List.mem_append.mp hd).elim (h d) (h' d)
  cases l with
  | func name k =>
    refine ⟨.inr rfl, ?_⟩
    have hfunc : ∀ d ∈ "Func_scm_".toList, cIdentChar d := List.all_eq_true.mp (by decide)
    exact hjoin (hjoin hfunc h) (hjoin hmark (cIdentChar_showInt k))
  | data dtype name k =>
    refine ⟨.inr rfl, hjoin (hjoin (hjoin ?_ hscm) ?_) (cIdentChar_showInt k)⟩
    · rcases h with ⟨h | h, -⟩ | ⟨h, -⟩
      · exact List.all_eq_true.mp (hfixed _ (List.mem_cons_of_mem _ h))
      · exact h
      · exact List.all_eq_true.mp (hfixed _ (List.mem_cons.mpr (.inl h)))
    · rcases h with ⟨-, h⟩ | ⟨-, f, hf, h⟩
      · rw [h]
        exact nofun
      · rw [h]
        exact hjoin hf hmark

/-- The name in the label of a function is part of the identifier. -/
theorem cIdentChar_of_funcLabel {f : Text} {k : ℕ} (h : CIdentifier (funcLabel f k)) :
    ∀ d ∈ f, cIdentChar d :=
  fun d hd => h.2 d (List.mem_append_left _ (List.mem_append_right "Func_scm_".toList hd))

/-- **The labels of a program** are identifiers of C exactly when the names of its procedures have
no other characters than letters, digits and underscores. -/
theorem labels_identifiers_iff {exps : List Expr} {modName : Text}
    (hcompile : compile exps = some c)
    (hconvert : CFile.convert fuel modName c = (some (out, t), w)) :
    (∀ l ∈ w.filterMap Event.label?, CIdentifier l) ↔
      ∀ f ∈ proceduresSeq exps, ∀ d ∈ f, cIdentChar d := by
  have hclosures : closures c = proceduresSeq exps := by
    obtain ⟨⟨c, m⟩, hcode, rfl⟩ := Option.map_eq_some_iff.mp hcompile
    obtain ⟨cs, hcs, rfl⟩ := emits_sequence.mp hcode
    exact closures_seq exps hcs
  rw [← hclosures]
  constructor
  · intro h f hf
    obtain ⟨k, hk⟩ := funcLabel_of_mem c hconvert f hf
    exact cIdentChar_of_funcLabel (h _ (List.mem_filterMap.mpr ⟨_, hk, rfl⟩))
  · intro h
    obtain ⟨ls, hw, hnames, -⟩ := (along_convSequence c h).run hconvert
    rw [hw]
    intro text htext
    obtain ⟨l, hl, rfl⟩ := List.mem_map.mp htext
    exact cIdentifier_text (hnames l hl)

/-- The labels of `(define (f_1) 1)`. -/
theorem labels_identifiers_iff_underscore : ∃ out t w,
    CFile.convert 1 [] (definitionCode "f_1".toList) = (some (out, t), w) ∧
      ∀ l ∈ w.filterMap Event.label?, CIdentifier l := by
  obtain ⟨out, t, w, hconvert⟩ := convert_definition "f_1".toList
  refine ⟨out, t, w, hconvert, (labels_identifiers_iff (compile_definition _) hconvert).mpr ?_⟩
  intro f hf d hd
  rw [List.mem_singleton.mp hf] at hd
  have hmem : d ∈ ['f', '_', '1'] := hd
  simp only [List.mem_cons, List.not_mem_nil, or_false] at hmem
  obtain rfl | rfl | rfl := hmem <;> decide

/-- **The slip of the labels**: `(define (a-b) 1)`. -/
theorem not_labels_identifiers : ¬ ∀ (exps : List Expr) (c : List Code) (out : List Text)
    (t : CompileTimeState) (w : List Event), AllGrammatical true exps →
      (∀ f ∈ proceduresSeq exps, ∃ i : Identifier, f = i.name) → compile exps = some c →
      CFile.convert 1 [] c = (some (out, t), w) →
        ∀ l ∈ w.filterMap Event.label?, CIdentifier l := by
  intro hall
  obtain ⟨out, t, w, hconvert⟩ := convert_definition "a-b".toList
  have hlabels := hall (definition "a-b".toList) _ out t w ⟨⟨rfl, trivial, trivial⟩, trivial⟩
    (fun f hf => ⟨⟨"a-b".toList, by decide⟩,
      (List.mem_singleton.mp hf).trans (by decide)⟩)
    (compile_definition _) hconvert
  obtain ⟨k, hk⟩ := funcLabel_of_mem _ hconvert "a-b".toList List.mem_cons_self
  have hname := cIdentChar_of_funcLabel (hlabels _ (List.mem_filterMap.mpr ⟨_, hk, rfl⟩))
  exact absurd (hname '-' (by decide)) (by decide)

end SchemeOs.Compiler
