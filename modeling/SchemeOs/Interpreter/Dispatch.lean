import SchemeOs.Interpreter.FormSpec
import SchemeOs.Machinery.Traced

/-!
# Interpreter/Dispatch — what `scheme_eval` dispatches on

`scheme_eval` analyzes its expression and takes the type of what it gets, less `_scheme_expr_type_`,
for an index of `_eval_funs_`, without a look at it.  Here every such step of an evaluation is an
event of a trace.

The analysis gives one of the shared constants for some forms, and the types of these are no
indices.  So a run is followed as long as the constants are in place: the evaluator itself leaves
them alone, and a builtin procedure that it calls, which is an event too, must not write into them.
-/

namespace SchemeOs

/-- `scheme_eval` is about to analyze `exp` and to dispatch on the type of what it gets. -/
structure Call where
  mem : Memory
  exp : Ptr

/-- A step of an evaluation: a dispatch, or a builtin procedure is called. -/
inductive EvalEvent where
  | dispatch (c : Call)
  | builtin (n : ℕ) (proc arg : Ptr) (mem : Memory)

/-- The dispatch, where the event is one. -/
def EvalEvent.call? : EvalEvent → Option Call
  | .dispatch c => some c
  | .builtin .. => none

abbrev Evaluation := Traced EvalEvent Memory

namespace Dispatch

open Traced (lift)

/-! ## The evaluation and its dispatches

The evaluator of `Interpreter/Eval`, with an event for each analysis and for each call of a builtin
procedure. -/

/-- Computations on the memory leave no event. -/
instance : MonadLiftT Comp Evaluation := ⟨lift⟩

section Eval

variable (ext : Externals)

/-- The analysis at the beginning of `scheme_eval`. -/
def analysis (n : ℕ) (exp : Ptr) : Evaluation Ptr :=
  fun m => ((analyze ext n exp).run m, [.dispatch ⟨m, exp⟩])

/-- `scheme_apply_prim_proc`, called by `scheme_apply`. -/
def applyPrimProc (n : ℕ) (proc arg : Ptr) : Evaluation Ptr :=
  fun m => ((schemeApplyPrimProc ext n proc arg).run m, [.builtin n proc arg m])

/-- The steps with their events. -/
def tracedSteps : EvalSteps Evaluation where
  analyze := analysis ext
  applyPrimProc := applyPrimProc ext

abbrev schemeEval : ℕ → Ptr → Ptr → Evaluation Ptr := (tracedSteps ext).schemeEval

end Eval

/-! ## Without the trace

The trace changes no result: with the events forgotten, each function of the evaluation is that of
`schemeEval`. -/

/-- With the fuel `n` the functions return what those of the evaluator return. -/
structure Forgets (ext : Externals) (n : ℕ) : Prop where
  eval : ∀ exp env,
    ((tracedSteps ext).schemeEval n exp env).result = (plainSteps ext).schemeEval n exp env
  fn : ∀ t exp env,
    ((tracedSteps ext).evalFun n t exp env).result = (plainSteps ext).evalFun n t exp env
  sequence : ∀ exp env, ((tracedSteps ext).schemeEvalSequence n exp env).result =
    (plainSteps ext).schemeEvalSequence n exp env
  elements : ∀ exp env,
    ((tracedSteps ext).evalElements n exp env).result = (plainSteps ext).evalElements n exp env
  ifForm : ∀ exp env,
    ((tracedSteps ext).evalIf n exp env).result = (plainSteps ext).evalIf n exp env
  cond : ∀ exp env,
    ((tracedSteps ext).evalCond n exp env).result = (plainSteps ext).evalCond n exp env
  application : ∀ exp env, ((tracedSteps ext).evalApplication n exp env).result =
    (plainSteps ext).evalApplication n exp env
  and : ∀ exp env,
    ((tracedSteps ext).evalAnd n exp env).result = (plainSteps ext).evalAnd n exp env
  or : ∀ exp env, ((tracedSteps ext).evalOr n exp env).result = (plainSteps ext).evalOr n exp env
  list : ∀ rslt q exp env, ((tracedSteps ext).evalList n rslt q exp env).result =
    (plainSteps ext).evalList n rslt q exp env
  apply : ∀ proc pars,
    ((tracedSteps ext).schemeApply n proc pars).result = (plainSteps ext).schemeApply n proc pars

section Result

open Traced EvalSteps

variable {ext : Externals} {n : ℕ} {p q : Ptr} {α : Type} {k : Comp α}

@[simp] theorem result_liftM : (liftM k : Evaluation α).result = liftM k := rfl

@[simp] theorem result_stuck : (stuck : Evaluation Ptr).result = stuck := rfl

@[simp] theorem result_analyze :
    ((tracedSteps ext).analyze n p).result = (plainSteps ext).analyze n p := rfl

@[simp] theorem result_applyPrimProc :
    ((tracedSteps ext).applyPrimProc n p q).result = (plainSteps ext).applyPrimProc n p q := rfl

/-- The step of the induction: each function calls those with less fuel. -/
theorem Forgets.succ (ih : Forgets ext n) : Forgets ext (n + 1) where
  eval exp env := by
    simp only [EvalSteps.schemeEval, result_ite, result_bind, result_pure, result_liftM,
      result_analyze, ih.fn]
  fn t exp env := by
    cases t <;> simp only [EvalSteps.evalFun, result_bind, result_pure, result_liftM, result_stuck,
      ih.eval, ih.ifForm, ih.sequence, ih.cond, ih.application, ih.and, ih.or]
  sequence exp env := by
    simp only [EvalSteps.schemeEvalSequence, result_ite, result_pure, ih.elements]
  elements exp env := by
    simp only [EvalSteps.evalElements, result_ite, result_bind, result_liftM, ih.eval, ih.elements]
  ifForm exp env := by
    simp only [EvalSteps.evalIf, result_ite, result_bind, result_liftM, ih.eval]
  cond exp env := by
    simp only [EvalSteps.evalCond, result_ite, result_bind, result_pure, result_liftM, ih.eval,
      ih.sequence, ih.cond]
  application exp env := by
    simp only [EvalSteps.evalApplication, result_ite, result_bind, result_pure, result_liftM,
      ih.eval, ih.list, ih.apply]
  and exp env := by
    simp only [EvalSteps.evalAnd, result_ite, result_bind, result_pure, result_liftM, ih.eval,
      ih.and]
  or exp env := by
    simp only [EvalSteps.evalOr, result_ite, result_bind, result_pure, result_liftM, ih.eval, ih.or]
  list rslt q exp env := by
    simp only [EvalSteps.evalList, result_ite, result_bind, result_pure, result_liftM, ih.eval,
      ih.list]
  apply proc pars := by
    rw [EvalSteps.schemeApply, EvalSteps.schemeApply, result_bind, result_liftM]
    refine congrArg _ (funext fun t => ?_)
    cases t <;> simp only [result_bind, result_pure, result_liftM, result_applyPrimProc,
      ih.sequence]

theorem forgets : ∀ n, Forgets ext n
  | 0 => by constructor <;> intros <;> rfl
  | n + 1 => (forgets n).succ

end Result

/-- **The evaluation is that of the evaluator**, and leaves its dispatches as a trace. -/
theorem result_schemeEval (ext : Externals) (n : ℕ) (exp env : Ptr) :
    (schemeEval ext n exp env).result = SchemeOs.schemeEval ext n exp env :=
  (forgets n).eval exp env

end Dispatch

/-! ## The constants

Which functions leave the shared constants as they are. -/

variable {α β : Type} {ext : Externals} {m m' : Memory} {k : Comp α} {n : ℕ} {p : Ptr}

/-- The computation leaves the constants in place. -/
def KeepsConstants (k : Comp α) : Prop :=
  ∀ m, HasConstants m.heap → Ensures k m fun _ m' => HasConstants m'.heap

namespace KeepsConstants

theorem of_pure {a : α} : KeepsConstants (pure a) := fun _ hm => .of_pure hm

theorem of_failure : KeepsConstants (failure : Comp α) := fun _ _ => .of_failure

theorem bind {f : α → Comp β} (h : KeepsConstants k) (hf : ∀ a, KeepsConstants (f a)) :
    KeepsConstants (k >>= f) := fun m hm => (h m hm).bind fun a m' hm' => hf a m' hm'

theorem ite {c : Prop} [Decidable c] {k' : Comp α} (h : KeepsConstants k) (h' : KeepsConstants k') :
    KeepsConstants (if c then k else k') := by
  split
  · exact h
  · exact h'

/-- What leaves all objects as they are. -/
theorem of_heap (h : ∀ m a m', k.run m = some (a, m') → m'.heap = m.heap) : KeepsConstants k := by
  intro m hm a m' hrun
  rw [h m a m' hrun]
  exact hm

theorem of_readMem {f : Memory → Option α} : KeepsConstants (readMem f) := by
  refine of_heap fun m a m' hrun => ?_
  obtain ⟨_, _, heq⟩ := Option.map_eq_some_iff.mp hrun
  cases heq
  rfl

theorem of_liftM {o : Option α} : KeepsConstants (liftM o : Comp α) := by
  refine of_heap fun m a m' hrun => ?_
  cases o with
  | none => cases hrun
  | some b =>
    cases hrun
    rfl

/-- A new object is none of the constants. -/
theorem schemeAllocObj {o : Obj} : KeepsConstants (schemeAllocObj o) := by
  intro m hm
  refine .of_run run_schemeAllocObj ?_
  obtain ⟨t, ht, hor⟩ := hm.null
  exact ⟨⟨t, Memory.heap_push _ _ ht, hor⟩, Memory.heap_push _ _ hm.void,
    Memory.heap_push _ _ hm.true, Memory.heap_push _ _ hm.false⟩

/-- None of the constants has a cdr to set. -/
theorem schemeSetCdr {p q : Ptr} : KeepsConstants (schemeSetCdr p q) := by
  rintro m hm ⟨⟩ m' hrun
  obtain ⟨a, ha, heq⟩ := Option.map_eq_some_iff.mp hrun
  cases heq
  obtain ⟨t, u, ho⟩ := Heap.obj?_of_car? ha
  have hkeep : ∀ {r t}, m.heap.obj? r = some ⟨t, .const⟩ →
      (m.modify p fun o => { o with u := .pair a (some q) }).heap.obj? r = some ⟨t, .const⟩ := by
    intro r t hr
    rw [Memory.obj?_modify_of_ne, hr]
    rintro rfl
    rw [ho] at hr
    cases hr
  obtain ⟨t, ht, hor⟩ := hm.null
  exact ⟨⟨t, hkeep ht, hor⟩, hkeep hm.void, hkeep hm.true, hkeep hm.false⟩

/-! ### Environments -/

theorem storeBindings {r : ℕ} {b : Bindings} : KeepsConstants (storeBindings r b) := by
  refine of_heap fun m a m' hrun => ?_
  change (if r < m.bindings.length then _ else none) = _ at hrun
  split_ifs at hrun
  cases hrun
  rfl

theorem writeSlot {b i : ℕ} {s : Binding} : KeepsConstants (writeSlot b i s) := by
  refine of_heap fun m a m' hrun => ?_
  obtain ⟨slots, -, heq⟩ := Option.bind_eq_some_iff.mp hrun
  split_ifs at heq
  cases heq
  rfl

theorem copySlots {dst src n : ℕ} : KeepsConstants (copySlots dst src n) := by
  refine of_heap fun m a m' hrun => ?_
  obtain ⟨old, -, hrun⟩ := Option.bind_eq_some_iff.mp hrun
  obtain ⟨new, -, heq⟩ := Option.bind_eq_some_iff.mp hrun
  split_ifs at heq
  cases heq
  rfl

theorem freeBlock {b : ℕ} : KeepsConstants (freeBlock b) := by
  refine of_heap fun m a m' hrun => ?_
  obtain ⟨slots, -, heq⟩ := Option.map_eq_some_iff.mp hrun
  cases heq
  rfl

theorem allocBlock {max : ℕ} : KeepsConstants (allocBlock max) := by
  refine of_heap fun m a m' hrun => ?_
  cases hrun
  rfl

theorem allocBindings {b : Bindings} : KeepsConstants (allocBindings b) := by
  refine of_heap fun m a m' hrun => ?_
  cases hrun
  rfl

/-- The search for a variable only reads. -/
theorem schemeLookupVar (x : Ptr) : ∀ n env, KeepsConstants (schemeLookupVar n x env)
  | 0, _ => of_failure
  | n + 1, env => by
    refine ite of_pure (bind of_readMem fun r => bind of_readMem fun b =>
      bind of_readMem fun pairs => bind of_liftM fun slot => ?_)
    cases slot with
    | some i => exact of_liftM
    | none => exact schemeLookupVar x n r.2

theorem growBlock {b : Bindings} : KeepsConstants (growBlock b) :=
  bind allocBlock fun _ => bind copySlots fun _ => bind freeBlock fun _ => of_pure

/-- A definition writes slots and records, but no object. -/
theorem schemeDefineVar {x v e : Ptr} : KeepsConstants (schemeDefineVar x v e) := by
  refine bind of_readMem fun r => bind of_readMem fun b => bind of_readMem fun slots =>
    bind of_liftM fun slot => ?_
  cases slot with
  | some i => exact bind writeSlot fun _ => of_pure
  | none =>
    have hrest : ∀ b : Bindings, KeepsConstants (do
        SchemeOs.storeBindings r.1 { b with bindCnt := b.bindCnt + 1 }
        SchemeOs.writeSlot b.binds b.bindCnt ⟨x, v⟩
        return x) :=
      fun _ => bind storeBindings fun _ => bind writeSlot fun _ => of_pure
    dsimp only
    exact ite (bind growBlock hrest) (hrest b)

theorem schemeSetVar {x v e : Ptr} : KeepsConstants (schemeSetVar x v e) := by
  refine bind of_readMem fun r => bind of_readMem fun b => bind of_readMem fun slots =>
    bind of_liftM fun slot => ?_
  cases slot with
  | some i => exact bind of_liftM fun v => bind writeSlot fun _ => of_pure
  | none => exact of_pure

theorem countVars : ∀ n p cnt, KeepsConstants (countVars n p cnt)
  | 0, _, _ => of_failure
  | n + 1, _, cnt =>
    bind of_readMem fun _ => ite (bind of_readMem fun q => countVars n q (cnt + 1)) of_pure

theorem fillSlots (b : ℕ) : ∀ n i vars vals, KeepsConstants (fillSlots b n i vars vals)
  | 0, _, _, _ => of_failure
  | n + 1, i, _, _ =>
    bind of_readMem fun _ => ite (bind of_readMem fun _ => bind of_readMem fun _ => bind writeSlot
      fun _ => bind of_readMem fun vars => bind of_readMem fun vals =>
        fillSlots b n (i + 1) vars vals) of_pure

/-- A new environment is a new object. -/
theorem schemeExtendEnv {vars vals env : Ptr} :
    KeepsConstants (schemeExtendEnv n vars vals env) := by
  refine bind (countVars _ _ _) fun c => bind of_readMem fun t => ?_
  refine bind allocBlock fun pairs => bind allocBindings fun bindings =>
    bind (fillSlots _ _ _ _ _) fun r => bind of_readMem fun t' => ?_
  exact ite (bind writeSlot fun _ => schemeAllocObj) schemeAllocObj

end KeepsConstants

/-! ## Dispatches

While the constants are in place, a dispatch is on an index of the table exactly when the
expression is analyzed to a node; from one dispatch this goes over to whole runs. -/

/-- **The dispatch is on a node**: the analysis ends with an object that is self-evaluating or
quoted, or that has an entry in `_eval_funs_`. -/
def Call.OnNode (ext : Externals) (c : Call) : Prop :=
  ∃ r m' t, Ends (fun n => analyze ext n c.exp) c.mem r m' ∧ m'.heap.type? r = some t ∧
    (t = .selfEvaluating ∨ t = .quotedExpr ∨ t.HasEntry)

/-- The expression is a node from an earlier analysis, or a datum that comes to a node. -/
def Call.Fit (ext : Externals) (c : Call) : Prop :=
  (∃ t, c.mem.heap.type? c.exp = some t ∧ t.IsExpr ∧ t.HasEntry) ∨
    ∃ d, Shows c.mem.heap d c.exp ∧ ComesTo ext .datum d .node

/-- What is analyzed already is returned as it is. -/
theorem run_analyze_node {t : SchemeType} (ht : m.heap.type? p = some t) (hexpr : t.IsExpr)
    (n : ℕ) : (analyze ext (n + 1) p).run m = some (p, m) := by
  rw [analyze, run_bind_of_run (run_schemeType ht), if_pos hexpr]
  rfl

/-- **One step**: what fits is a node after the analysis. -/
theorem Call.onNode_of_fit {c : Call} (hm : HasConstants c.mem.heap) (h : c.Fit ext) :
    c.OnNode ext := by
  rcases h with ⟨t, ht, hexpr, hentry⟩ | ⟨d, hd, hcomes⟩
  · have hends : Ends (fun n => analyze ext n c.exp) c.mem c.exp c.mem :=
      .succ ⟨0, fun n _ => run_analyze_node ht hexpr n⟩
    exact ⟨c.exp, c.mem, t, hends, ht, .inr (.inr hentry)⟩
  · obtain ⟨r, m', hends, t, ht, hentry⟩ := hcomes.analysable c.mem c.exp hm hd
    exact ⟨r, m', t, hends, ht, .inr (.inr hentry)⟩

/-- An analysis that ends with a result leaves the constants as they were. -/
theorem constants_of_ends {d : Datum} {r : Ptr} (hm : HasConstants m.heap) (hd : Shows m.heap d p)
    (hends : Ends (fun n => analyze ext n p) m r m') : HasConstants m'.heap := by
  obtain ⟨N, hN⟩ := hends
  exact ((analysisSpec ext N).analyze hm hd r m' (hN N le_rfl)).effect.constants hm

/-- Of a datum that comes to something else the dispatch is not on a node. -/
theorem Call.eq_node_of_onNode {c : Call} {d : Datum} {f : Form} (hm : HasConstants c.mem.heap)
    (hd : Shows c.mem.heap d c.exp) (hcomes : ComesTo ext .datum d f) (h : c.OnNode ext) :
    f = .node ∨ f = .empty := by
  obtain ⟨r, m', t, hends, ht, hnode⟩ := h
  have hentry : t.HasEntry := by
    rcases hnode with rfl | rfl | hentry
    · decide
    · decide
    · exact hentry
  have hm' := constants_of_ends hm hd hends
  obtain ⟨v, m₁, hcome, hv⟩ := hcomes.analysable c.mem c.exp hm hd
  obtain ⟨rfl, rfl⟩ := hends.unique hcome
  cases f with
  | node => exact .inl rfl
  | empty => exact .inr rfl
  | void =>
    obtain rfl : r = schemeVoid := hv
    rw [Heap.type?_of_obj? hm'.void] at ht
    cases ht
    exact absurd hentry (by decide)
  | truth =>
    obtain rfl : r = schemeTrue := hv
    rw [Heap.type?_of_obj? hm'.true] at ht
    cases ht
    exact absurd hentry (by decide)

/-- **The condition is exact** for a datum other than `()`, of which `scheme_eval` asks nothing. -/
theorem Call.onNode_iff_fit {c : Call} {d : Datum} (hm : HasConstants c.mem.heap)
    (hd : Shows c.mem.heap d c.exp) (hnull : d ≠ .null) : c.OnNode ext ↔ c.Fit ext := by
  refine ⟨fun h => ?_, Call.onNode_of_fit hm⟩
  obtain ⟨r, m', t, hends, -⟩ := id h
  obtain ⟨f, hcomes⟩ := (exists_comesTo_iff hm hd).mpr ⟨r, m', hends⟩
  rcases Call.eq_node_of_onNode hm hd hcomes h with rfl | hempty
  · exact .inr ⟨d, hd, hcomes⟩
  · exact absurd (hcomes.eq_null hempty) hnull

/-- The expression fits, or the builtin procedure leaves the constants in place. -/
def EvalEvent.Fit (ext : Externals) : EvalEvent → Prop
  | .dispatch c => c.Fit ext
  | .builtin n proc arg m =>
    Ensures (schemeApplyPrimProc ext n proc arg) m fun _ m' => HasConstants m'.heap

/-- A dispatch is on a node. -/
def EvalEvent.OnNode (ext : Externals) (e : EvalEvent) : Prop :=
  ∀ c, e.call? = some c → c.OnNode ext

/-- In the run of `x` every dispatch is on a node, if all steps fit. -/
def Dispatches (ext : Externals) (x : Evaluation α) : Prop :=
  x.Keeps (fun m => HasConstants m.heap) (EvalEvent.Fit ext) (EvalEvent.OnNode ext)

namespace Dispatch

open Traced.Keeps (of_pure of_lift bind ite)

/-- The analysis dispatches on nothing. -/
theorem dispatches_analysis (n : ℕ) (exp : Ptr) : Dispatches ext (analysis ext n exp) := by
  intro m hm hfit
  have hfirst : (⟨m, exp⟩ : Call).Fit ext := hfit _ (List.mem_singleton_self _)
  refine ⟨fun e he c hc => ?_, fun r m' hrun => ?_⟩
  · obtain rfl := List.mem_singleton.mp he
    obtain rfl := Option.some.inj hc
    exact Call.onNode_of_fit hm hfirst
  · change (analyze ext n exp).run m = some (r, m') at hrun
    rcases hfirst with ⟨t, ht, hexpr, -⟩ | ⟨d, hd, -⟩
    · cases n with
      | zero => cases hrun
      | succ n =>
        rw [run_analyze_node ht hexpr] at hrun
        cases hrun
        exact hm
    · exact ((analysisSpec ext n).analyze hm hd r m' hrun).effect.constants hm

/-- A builtin procedure is one event, and no dispatch. -/
theorem dispatches_applyPrimProc (n : ℕ) (proc arg : Ptr) :
    Dispatches ext (applyPrimProc ext n proc arg) := by
  intro m hm hfit
  have hkeeps : EvalEvent.Fit ext (.builtin n proc arg m) := hfit _ (List.mem_singleton_self _)
  refine ⟨fun e he c hc => ?_, fun r m' hrun => hkeeps r m' hrun⟩
  obtain rfl := List.mem_singleton.mp he
  cases hc

/-- With the fuel `n` the functions of the evaluation dispatch on nodes. -/
structure Safe (ext : Externals) (n : ℕ) : Prop where
  eval : ∀ exp env, Dispatches ext ((tracedSteps ext).schemeEval n exp env)
  fn : ∀ t exp env, Dispatches ext ((tracedSteps ext).evalFun n t exp env)
  sequence : ∀ exp env, Dispatches ext ((tracedSteps ext).schemeEvalSequence n exp env)
  elements : ∀ exp env, Dispatches ext ((tracedSteps ext).evalElements n exp env)
  ifForm : ∀ exp env, Dispatches ext ((tracedSteps ext).evalIf n exp env)
  cond : ∀ exp env, Dispatches ext ((tracedSteps ext).evalCond n exp env)
  application : ∀ exp env, Dispatches ext ((tracedSteps ext).evalApplication n exp env)
  and : ∀ exp env, Dispatches ext ((tracedSteps ext).evalAnd n exp env)
  or : ∀ exp env, Dispatches ext ((tracedSteps ext).evalOr n exp env)
  list : ∀ rslt q exp env, Dispatches ext ((tracedSteps ext).evalList n rslt q exp env)
  apply : ∀ proc pars, Dispatches ext ((tracedSteps ext).schemeApply n proc pars)

/-- What does not evaluate. -/
theorem dispatches_lift {k : Comp α} (h : KeepsConstants k) :
    Dispatches ext (liftM k : Evaluation α) :=
  of_lift h

/-- Reading is no event. -/
theorem dispatches_read {f : Memory → Option α} :
    Dispatches ext (liftM (readMem f) : Evaluation α) :=
  dispatches_lift .of_readMem

theorem dispatches_stuck : Dispatches ext EvalSteps.stuck := dispatches_lift .of_failure

theorem safe_zero : Safe ext 0 where
  eval _ _ := dispatches_stuck
  fn _ _ _ := dispatches_stuck
  sequence _ _ := dispatches_stuck
  elements _ _ := dispatches_stuck
  ifForm _ _ := dispatches_stuck
  cond _ _ := dispatches_stuck
  application _ _ := dispatches_stuck
  and _ _ := dispatches_stuck
  or _ _ := dispatches_stuck
  list _ _ _ _ := dispatches_stuck
  apply _ _ := dispatches_stuck

/-- The functions of `_eval_funs_`. -/
theorem Safe.fn_succ (ih : Safe ext n) (t : SchemeType) (exp env : Ptr) :
    Dispatches ext ((tracedSteps ext).evalFun (n + 1) t exp env) := by
  cases t with
  | exprType | selfEvaluating | quotedExpr | elseClause => exact of_pure
  | variableExpr =>
    rw [EvalSteps.evalFun]
    exact bind dispatches_read fun _ => dispatches_lift (.schemeLookupVar _ _ _)
  | assignmentExpr =>
    rw [EvalSteps.evalFun]
    exact bind dispatches_read fun _ => bind dispatches_read fun _ => bind (ih.eval _ _) fun _ =>
      dispatches_lift .schemeSetVar
  | defvarExpr =>
    rw [EvalSteps.evalFun]
    exact bind dispatches_read fun _ => bind dispatches_read fun _ => bind (ih.eval _ _) fun _ =>
      dispatches_lift .schemeDefineVar
  | defunExpr =>
    rw [EvalSteps.evalFun]
    exact bind dispatches_read fun _ => bind dispatches_read fun _ => bind dispatches_read
      fun _ => bind (dispatches_lift .schemeAllocObj) fun _ => bind dispatches_read fun _ =>
        dispatches_lift .schemeDefineVar
  | ifExpr => exact ih.ifForm exp env
  | lambdaExpr =>
    rw [EvalSteps.evalFun]
    exact bind dispatches_read fun _ => bind dispatches_read fun _ =>
      dispatches_lift .schemeAllocObj
  | beginExpr | sequenceExpr => exact ih.sequence exp env
  | condExpr => exact ih.cond exp env
  | applicationExpr => exact ih.application exp env
  | andExpr => exact ih.and exp env
  | orExpr => exact ih.or exp env
  | _ => exact dispatches_stuck

/-- The step of the induction: each function calls those with less fuel. -/
theorem Safe.succ (ih : Safe ext n) : Safe ext (n + 1) where
  eval exp env := by
    refine ite (fun _ => of_pure) fun _ => bind (dispatches_analysis n exp) fun exp' => ?_
    exact bind dispatches_read fun t => ite (fun _ => dispatches_read) fun _ => ih.fn t exp' env
  fn := ih.fn_succ
  sequence exp env := ite (fun _ => of_pure) fun _ => ih.elements exp env
  elements exp env :=
    bind dispatches_read fun _ => ite (fun _ => bind dispatches_read fun _ => ih.eval _ _)
      fun _ => bind dispatches_read fun _ => bind (ih.eval _ _) fun _ =>
        bind dispatches_read fun _ => ih.elements _ _
  ifForm exp env :=
    bind dispatches_read fun _ => bind dispatches_read fun _ => bind dispatches_read fun _ =>
      bind dispatches_read fun _ => bind (ih.eval _ _) fun _ =>
        ite (fun _ => ih.eval _ _) fun _ => ih.eval _ _
  cond exp env :=
    ite (fun _ => of_pure) fun _ => bind dispatches_read fun _ => bind dispatches_read fun _ =>
      ite (fun _ => bind dispatches_read fun _ => ih.sequence _ _) fun _ =>
        bind (ih.eval _ _) fun _ => ite (fun _ => bind dispatches_read fun _ => ih.sequence _ _)
          fun _ => bind dispatches_read fun _ => ih.cond _ _
  application exp env :=
    bind dispatches_read fun _ => bind (ih.eval _ _) fun _ => ite (fun _ => of_pure) fun _ =>
      bind dispatches_read fun _ => bind (ih.list _ _ _ _) fun _ => ih.apply _ _
  and exp env :=
    ite (fun _ => of_pure) fun _ => bind dispatches_read fun _ => bind (ih.eval _ _) fun _ =>
      ite (fun _ => of_pure) fun _ => bind dispatches_read fun _ => ih.and _ _
  or exp env :=
    ite (fun _ => of_pure) fun _ => bind dispatches_read fun _ => bind (ih.eval _ _) fun _ =>
      ite (fun _ => of_pure) fun _ => bind dispatches_read fun _ => ih.or _ _
  list rslt q exp env :=
    ite (fun _ => of_pure) fun _ => bind dispatches_read fun _ => bind (ih.eval _ _) fun _ =>
      bind (dispatches_lift .schemeAllocObj) fun _ =>
        ite (fun _ => bind dispatches_read fun _ => ih.list _ _ _ _) fun _ =>
          bind (dispatches_lift .schemeSetCdr) fun _ => bind dispatches_read fun _ =>
            ih.list _ _ _ _
  apply proc pars := by
    refine bind dispatches_read fun t => ?_
    cases t with
    | primProc => exact dispatches_applyPrimProc _ _ _
    | cpdProc =>
      exact bind dispatches_read fun _ => bind (dispatches_lift .schemeExtendEnv) fun _ =>
        ih.sequence _ _
    | _ => exact of_pure

theorem safe : ∀ n, Safe ext n
  | 0 => safe_zero
  | n + 1 => (safe n).succ

/-- What the evaluation of `p` from the memory `m` dispatches on. -/
def calls (ext : Externals) (n : ℕ) (p env : Ptr) (m : Memory) : List Call :=
  ((schemeEval ext n p env).trace m).filterMap EvalEvent.call?

/-- **Every dispatch of the evaluation is on a node** if every expression that it dispatches on
fits, and every builtin procedure that it calls leaves the constants in place. -/
theorem onNode_of_run (hm : HasConstants m.heap) (n : ℕ) (p env : Ptr)
    (hfit : ∀ e ∈ (schemeEval ext n p env).trace m, e.Fit ext) :
    ∀ c ∈ calls ext n p env m, c.OnNode ext := by
  intro c hc
  obtain ⟨e, he, hcall⟩ := List.mem_filterMap.mp hc
  exact ((safe n).eval p env m hm hfit).1 e he c hcall

/-- `(and x)` in the memory `andMemory`: the form, and then the node of its operand. -/
theorem onNode_of_run_and :
    (calls zeroExternals 9 (.obj 10) schemeNull andMemory).map Call.exp = [.obj 10, .obj 11] ∧
    ∀ c ∈ calls zeroExternals 9 (.obj 10) schemeNull andMemory, c.OnNode zeroExternals := by
  refine ⟨by decide +kernel, onNode_of_run hasConstants_andMemory 9 (.obj 10) schemeNull
    fun e he => ?_⟩
  obtain ⟨rest, htrace⟩ : ∃ rest,
      (schemeEval zeroExternals 9 (.obj 10) schemeNull).trace andMemory =
        .dispatch ⟨andMemory, .obj 10⟩ :: rest := ⟨_, rfl⟩
  have hrest : ∀ t ∈ ((schemeEval zeroExternals 9 (.obj 10) schemeNull).trace andMemory).tail.map
    fun e => e.call?.bind fun c => c.mem.heap.type? c.exp, t = some .variableExpr := by
      decide +kernel
  rw [htrace] at he hrest
  rcases List.mem_cons.mp he with rfl | he
  · have hkeyword : findKeyword zeroExternals ['a', 'n', 'd'] = some .and := by decide +kernel
    have hshows : Shows andMemory.heap
        (.pair (.symbol ['a', 'n', 'd']) (.pair (.symbol ['x']) .null)) (.obj 10) :=
      ⟨.obj 6, .obj 9, rfl, rfl, .obj 8, schemeNull, rfl, rfl, rfl⟩
    have hx : ComesTo zeroExternals .datum (.symbol ['x']) .node := .atom nofun nofun nofun
    exact .inr ⟨_, hshows, .tail hkeyword (.inl rfl) (.elemsCons hx .elemsNil)⟩
  · have htype := hrest _ (List.mem_map_of_mem he)
    cases e with
    | dispatch c => exact .inl ⟨_, htype, by decide, by decide⟩
    | builtin => cases htype

/-- A memory with the list `(1 2)`. -/
def numbers : Memory :=
  { Memory.init with objs := Memory.init.objs ++
    [⟨.integer, .int 1⟩, ⟨.integer, .int 2⟩, ⟨.pair, .pair (.obj 7) (some schemeNull)⟩,
     ⟨.pair, .pair (.obj 6) (some (.obj 8))⟩] }

/-- A list that starts with a number comes to `schemeVoid`, and the type of that is no index. -/
theorem not_onNode : ¬∀ (m : Memory) (d : Datum) (n : ℕ) (p env : Ptr), HasConstants m.heap →
    Shows m.heap d p → ∀ c ∈ calls zeroExternals n p env m, c.OnNode zeroExternals := by
  intro h
  have hm : HasConstants numbers.heap := ⟨⟨.null, rfl, .inl rfl⟩, rfl, rfl, rfl⟩
  have hshows : Shows numbers.heap (.pair (.int 1) (.pair (.int 2) .null)) (.obj 9) :=
    ⟨.obj 6, .obj 8, rfl, rfl, .obj 7, schemeNull, rfl, rfl, rfl⟩
  have hfirst : (⟨numbers, .obj 9⟩ : Call) ∈ calls zeroExternals 1 (.obj 9) schemeNull numbers :=
    List.mem_singleton_self _
  have hcomes : ComesTo zeroExternals .datum (.pair (.int 1) (.pair (.int 2) .null)) .void :=
    .head (by decide) (by decide)
  have hform := Call.eq_node_of_onNode hm hshows hcomes
    (h numbers _ 1 (.obj 9) schemeNull hm hshows _ hfirst)
  exact absurd hform (by decide)

end Dispatch

end SchemeOs
