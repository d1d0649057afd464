import SchemeOs.Compiler.Accepted
import SchemeOs.Compiler.Operands
import SchemeOs.Compiler.Supported

/-!
# Compiler/Straight — programs without procedures

The forms that call no closure: they load, test, define and assign, take pairs apart, and add. 
Where the evaluation of the expression has a value, its code does what the evaluation does
(`follows_expr`): it ends with the value in `reg_value` and the variables in their slots.  Of a part
of what is no pair, or a sum of what is no number, nothing is said, as the builtin functions test no
types.  A sum takes its operands off the stack twice, so none may stand in an operand.
-/

namespace SchemeOs.Compiler

variable {prog c k k' : List Code} {env : CompileTimeEnvt} {l n m : ℕ} {istail b : Bool}
  {binds : List Sym} {ρ ρ' : Sym → Val} {v : Val} {vs : List Val} {M M' : Svm} {s t : State}
  {α β : Type}

/-! ## Evaluation

The meaning of straight programs, which have no procedures but the builtin ones. -/

/-- The integers that the values are. -/
def numbers : List Val → Option (List ℤ)
  | [] => some []
  | .const (.number a) :: vs => (numbers vs).map (a :: ·)
  | _ :: _ => none

/-- The first part of a pair. -/
def carOf : Val → Option Val
  | .const (.list (d :: _)) => some (.const d)
  | .const (.sExp (d :: _) _) => some (.const d)
  | _ => none

/-- The second part of a pair. -/
def cdrOf : Val → Option Val
  | .const (.list (_ :: ds)) => some (.const (.list ds))
  | .const (.sExp [_] last) => some (.const last)
  | .const (.sExp (_ :: d :: ds) last) => some (.const (.sExp (d :: ds) last))
  | _ => none

/-- The value of a call of a builtin function, whose first operand is the last value: the part of a
pair, or the sum in 31 bits. -/
def applyBuiltin : Option Sym → List Val → Option Val
  | some (.sym f), vs =>
    if f = ['c', 'a', 'r'] then vs.getLast?.bind carOf
    else if f = ['c', 'd', 'r'] then vs.getLast?.bind cdrOf
    else if f = ['+'] then (numbers vs).map fun ns => .const (.number (ns.sum.bmod (2 ^ 31)))
    else none
  | _, _ => none

mutual

/-- The value of an expression where the variables have the values `ρ`, and their values after it,
if no operand is of a wrong type. -/
def evaluate (ρ : Sym → Val) : Expr → Option (Val × (Sym → Val))
  | .variable x => some (ρ x, ρ)
  | .quote d => some (.const d, ρ)
  | .selfEval d => some (.const d, ρ)
  | .procCall func args =>
    (evaluateArgs ρ args).bind fun r => (applyBuiltin (builtinSym func) r.1).map fun v => (v, r.2)
  | .sequence exps => evaluateSeq ρ .junk exps
  | .defvar x exp => (evaluate ρ exp).map fun r => (r.1, Function.update r.2 x r.1)
  | .assign x exp => (evaluate ρ exp).map fun r => (r.1, Function.update r.2 x r.1)
  | .branch test thenExp elseExp =>
    (evaluate ρ test).bind fun r =>
      if falsep r.1 then evaluate r.2 elseExp else evaluate r.2 thenExp
  | .cond clauses => evaluateCond ρ clauses
  | .and [] => some (.const (.boolean true), ρ)
  | .and (exp :: exps) => evaluateUntil ρ true (.const (.boolean true)) (exp :: exps)
  | .or [] => some (.const (.boolean false), ρ)
  | .or (exp :: exps) => evaluateUntil ρ false (.const (.boolean false)) (exp :: exps)
  | _ => none

/-- The value of the last expression of a body, which is `v` if there is none. -/
def evaluateSeq (ρ : Sym → Val) (v : Val) : List Expr → Option (Val × (Sym → Val))
  | [] => some (v, ρ)
  | exp :: exps => (evaluate ρ exp).bind fun r => evaluateSeq r.2 r.1 exps

/-- The values of operands, in the order in which they are compiled. -/
def evaluateArgs (ρ : Sym → Val) : List Expr → Option (List Val × (Sym → Val))
  | [] => some ([], ρ)
  | exp :: exps =>
    (evaluate ρ exp).bind fun r => (evaluateArgs r.2 exps).map fun q => (r.1 :: q.1, q.2)

/-- Operands are evaluated until one is false (`and`), or until one is not (`or`); the last one
evaluated had the value `v`. -/
def evaluateUntil (ρ : Sym → Val) (isFalse : Bool) (v : Val) :
    List Expr → Option (Val × (Sym → Val))
  | [] => some (v, ρ)
  | exp :: exps =>
    if falsep v = isFalse then some (v, ρ)
    else (evaluate ρ exp).bind fun r => evaluateUntil r.2 isFalse r.1 exps

/-- The first clause with a true test has the value of its body, or that of the test. -/
def evaluateCond (ρ : Sym → Val) : List (Expr × List Expr) → Option (Val × (Sym → Val))
  | [] => some (.const .void, ρ)
  | (tst, seq) :: clauses =>
    (evaluate ρ tst).bind fun r =>
      if falsep r.1 then evaluateCond r.2 clauses else evaluateSeq r.2 r.1 seq

end

/-- A builtin function that is called with `argc` operands; a sum only if `b`. -/
def Callable (b : Bool) : Option Sym → ℕ → Prop
  | some (.sym f), argc =>
    (f = ['c', 'a', 'r'] ∨ f = ['c', 'd', 'r']) ∧ 0 < argc ∨ f = ['+'] ∧ b = true
  | _, _ => False

mutual

/-- The forms without procedures, whose variables are those of the frame `binds` and whose constants
come through the C file; with sums, outside of operands, if `b`. -/
def Straight (b : Bool) (binds : List Sym) : Expr → Prop
  | .variable x => x ∈ binds
  | .quote d => Kept d
  | .selfEval d => Kept d
  | .procCall func args =>
    AllStraight false binds args ∧ Callable b (builtinSym func) args.length
  | .sequence exps => exps ≠ [] ∧ AllStraight b binds exps
  | .defvar x exp => x ∈ binds ∧ Straight b binds exp
  | .assign x exp => x ∈ binds ∧ Straight b binds exp
  | .branch test thenExp elseExp =>
    Straight b binds test ∧ Straight b binds thenExp ∧ Straight b binds elseExp
  | .cond clauses => ClausesStraight b binds clauses
  | .and exps => AllStraight b binds exps
  | .or exps => AllStraight b binds exps
  | .lambda _ _ => False
  | .defun _ _ _ => False
  | .defun2 _ _ _ _ => False
  | .case _ _ _ => False
  | .let _ _ => False

/-- `Straight`, for every expression. -/
def AllStraight (b : Bool) (binds : List Sym) : List Expr → Prop
  | [] => True
  | exp :: exps => Straight b binds exp ∧ AllStraight b binds exps

/-- `Straight`, for every test and every body. -/
def ClausesStraight (b : Bool) (binds : List Sym) : List (Expr × List Expr) → Prop
  | [] => True
  | (tst, seq) :: clauses =>
    Straight b binds tst ∧ AllStraight b binds seq ∧ ClausesStraight b binds clauses

end

section

variable {isFalse : Bool}

theorem evaluateUntil_of_eq (hv : falsep v = isFalse) :
    (exps : List Expr) → evaluateUntil ρ isFalse v exps = some (v, ρ)
  | [] => by rw [evaluateUntil]
  | _ :: _ => by rw [evaluateUntil, if_pos hv]

theorem evaluateUntil_cons (hv : falsep v ≠ isFalse) (exp : Expr) (exps : List Expr) :
    evaluateUntil ρ isFalse v (exp :: exps) =
      (evaluate ρ exp).bind fun r => evaluateUntil r.2 isFalse r.1 exps := by
  rw [evaluateUntil, if_neg hv]

end

/-! ## Runs with a result

From a state, some number of steps leads to a state with the property. -/

/-- The machine does what is computed, if that has a result: it gets to the code `k`, with registers
that hold the result. -/
def Follows (prog : List Code) (env : CompileTimeEnvt) (s : State) (k : List Code)
    (P : α → Svm → Prop) : Option α → Prop
  | some a => ∃ as M, Runs (Steps prog) s as ⟨env, k, M⟩ ∧ P a M
  | none => True

namespace Follows

variable {P : α → Svm → Prop} {Q : β → Svm → Prop} {r : Option α} {f : α → Option β}

theorem now {a : α} (h : P a M) : Follows prog env ⟨env, k, M⟩ k P (some a) :=
  ⟨[], M, .nil _, h⟩

/-- After a run. -/
theorem of_runs {as : List State} (h : Runs (Steps prog) s as t)
    (ht : Follows prog env t k P r) : Follows prog env s k P r := by
  cases r with
  | some a =>
    obtain ⟨bs, N, hbs, hP⟩ := ht
    exact ⟨as ++ bs, N, h.append hbs, hP⟩
  | none => trivial

theorem step_left (h : step prog s = some t) (ht : Follows prog env t k P r) :
    Follows prog env s k P r :=
  of_runs (.single ⟨rfl, h⟩) ht

/-- One computation after another. -/
theorem bind (h : Follows prog env s k P r)
    (hf : ∀ a N, r = some a → P a N → Follows prog env ⟨env, k, N⟩ k' Q (f a)) :
    Follows prog env s k' Q (r.bind f) := by
  cases r with
  | some a =>
    obtain ⟨as, N, has, hP⟩ := h
    exact of_runs has (hf a N rfl hP)
  | none => trivial

theorem map {g : α → β} (h : Follows prog env s k P r)
    (hg : ∀ a N, P a N → Follows prog env ⟨env, k, N⟩ k' Q (some (g a))) :
    Follows prog env s k' Q (r.map g) := by
  rw [Option.map_eq_bind]
  exact h.bind fun a N _ hP => hg a N hP

/-- After the result. -/
theorem and_then {P' : α → Svm → Prop} (h : Follows prog env s k P r)
    (hP : ∀ a N, P a N → Follows prog env ⟨env, k, N⟩ k' P' (some a)) :
    Follows prog env s k' P' r := by
  cases r with
  | some a =>
    obtain ⟨as, N, has, ha⟩ := h
    exact of_runs has (hP a N ha)
  | none => trivial

theorem mono {P' : α → Svm → Prop} (h : Follows prog env s k P r)
    (hle : ∀ a N, P a N → P' a N) : Follows prog env s k P' r :=
  h.and_then fun a N ha => now (hle a N ha)

end Follows

/-! ## The registers after an expression -/

variable {outer : CompileTimeEnvt} {es : List Expr} {f : List Char} {argc : ℕ} {x : Sym}

/-- The variables of the frame `binds` have the values `ρ`. -/
def Svm.Holds (M : Svm) (outer : CompileTimeEnvt) (binds : List Sym) (ρ : Sym → Val) : Prop :=
  ∀ x ∈ binds, M.valueOf (.envtFrame outer binds) x = ρ x

/-- The value is `v`, the variables have the values `ρ`, and the continuation is the old one; the
stack is too, unless there may be sums. -/
structure After (b : Bool) (outer : CompileTimeEnvt) (binds : List Sym) (M : Svm) (v : Val)
    (ρ : Sym → Val) (M' : Svm) : Prop where
  value : M'.value = v
  vars : M'.Holds outer binds ρ
  cont : M'.cont = M.cont
  stack : b = false → M'.stackTop = M.stackTop ∧ ∀ j, M.stackTop ≤ j → M'.stack j = M.stack j

/-- The values `vs` have been pushed, the last one on top. -/
structure Pushed (outer : CompileTimeEnvt) (binds : List Sym) (M : Svm) (vs : List Val)
    (ρ : Sym → Val) (M' : Svm) : Prop where
  vars : M'.Holds outer binds ρ
  cont : M'.cont = M.cont
  top : M'.stackTop = M.stackTop - vs.length
  cells : ∀ j, M.stackTop ≤ j → M'.stack j = M.stack j
  vals : ∀ (i : ℕ) w, vs.reverse[i]? = some w → M'.stack (M'.stackTop + i) = w

theorem After.setValue (h : M.Holds outer binds ρ) (v : Val) :
    After b outer binds M v ρ (M.setValue v) where
  value := rfl
  vars := h
  cont := rfl
  stack _ := ⟨rfl, fun _ _ => rfl⟩

theorem After.trans {w : Val} {N : Svm} (h : After b outer binds M v ρ M')
    (h' : After b outer binds M' w ρ' N) : After b outer binds M w ρ' N where
  value := h'.value
  vars := h'.vars
  cont := h'.cont.trans h.cont
  stack hb := by
    obtain ⟨htop, hcells⟩ := h.stack hb
    obtain ⟨htop', hcells'⟩ := h'.stack hb
    exact ⟨htop'.trans htop, fun j hj => (hcells' j (htop ▸ hj)).trans (hcells j hj)⟩

/-- A variable is defined or assigned. -/
theorem After.bindVar {i : ℕ} (h : After b outer binds M v ρ M') (hx : binds.idxOf? x = some i) :
    After b outer binds M v (Function.update ρ x v) (M'.bindVar i) where
  value := h.value
  vars := by
    intro y hy
    rw [valueOf_bindVar hx hy, h.value, Function.update_apply, h.vars y hy]
  cont := h.cont
  stack := h.stack

theorem Pushed.nil (h : M.Holds outer binds ρ) : Pushed outer binds M [] ρ M where
  vars := h
  cont := rfl
  top := (Int.sub_zero _).symm
  cells _ _ := rfl
  vals i w hi := by
    rw [List.reverse_nil, List.getElem?_nil] at hi
    cases hi

theorem Pushed.cons {N : Svm} (h : After false outer binds M v ρ M')
    (h' : Pushed outer binds M'.push vs ρ' N) : Pushed outer binds M (v :: vs) ρ' N := by
  obtain ⟨htop, hcells⟩ := h.stack rfl
  have htop' := h'.top
  have hcells' := h'.cells
  rw [Svm.push_stackTop, htop] at htop' hcells'
  refine ⟨h'.vars, h'.cont.trans h.cont, ?_, fun j hj => ?_, fun i w hi => ?_⟩
  · rw [htop', List.length_cons]
    omega
  · rw [hcells' j (by omega), Svm.push_stack_of_le _ (by rwa [htop]), hcells j hj]
  · rw [List.reverse_cons] at hi
    by_cases hlt : i < vs.length
    · rw [List.getElem?_append_left (by rwa [List.length_reverse])] at hi
      exact h'.vals i w hi
    · rw [List.getElem?_append_right (by rw [List.length_reverse]; omega), List.length_reverse,
        List.getElem?_singleton] at hi
      split_ifs at hi with hzero
      obtain rfl := Option.some.inj hi
      have hpos : N.stackTop + i = M.stackTop - 1 := by omega
      rw [hpos, hcells' _ (Int.le_refl _), ← htop, Svm.push_stack_top, h.value]

theorem Pushed.top_eq (h : Pushed outer binds M vs ρ M') {w : Val} (hw : vs.getLast? = some w) :
    M'.stack M'.stackTop = w := by
  have hvals := h.vals 0 w (by rwa [← List.head?_eq_getElem?, List.head?_reverse])
  rwa [Nat.cast_zero, Int.add_zero] at hvals

/-- The sum that `builtin_add` computes is that of the operands. -/
theorem sumStack_eq {stack : ℤ → Val} {top : ℤ}
    (h : ∀ (i : ℕ) w, vs.reverse[i]? = some w → stack (top + i) = w) :
    sumStack stack top vs.length = (numbers vs).map fun ns => ns.sum.bmod (2 ^ 31) := by
  induction vs with
  | nil => rfl
  | cons v vs ih =>
    have hrest := ih fun i w hi => h i w (by
      rw [List.reverse_cons]
      exact List.getElem?_append_left (List.getElem?_eq_some_iff.mp hi).1 ▸ hi)
    have hv : stack (top + vs.length) = v := h _ _ (by
      rw [List.reverse_cons, List.getElem?_append_right (by rw [List.length_reverse]),
        List.length_reverse, Nat.sub_self]
      rfl)
    rw [List.length_cons, sumStack, hv, hrest]
    cases v with
    | const d =>
      cases d with
      | number a =>
        rw [numbers]
        cases numbers vs with
        | none => rfl
        | some ns =>
          change some ((a + ns.sum.bmod (2 ^ 31)).bmod (2 ^ 31)) =
            some ((a :: ns).sum.bmod (2 ^ 31))
          rw [List.sum_cons, Int.add_bmod_bmod]
      | _ => rfl
    | _ => rfl

/-! ## Instructions -/

theorem follows_fetchConst (h : M.Holds outer binds ρ) {d : Datum} (hd : Kept d) :
    Follows prog (.envtFrame outer binds) ⟨.envtFrame outer binds, [.fetchConst d] ++ k, M⟩ k
      (fun r N => After b outer binds M r.1 r.2 N) (some (.const d, ρ)) := by
  rw [← Val.ofConst_of_kept hd]
  exact .step_left rfl (.now (.setValue h (.ofConst d)))

theorem follows_lookupVar (h : M.Holds outer binds ρ) (hx : x ∈ binds) :
    Follows prog (.envtFrame outer binds) ⟨.envtFrame outer binds, [.lookupVar x] ++ k, M⟩ k
      (fun r N => After b outer binds M r.1 r.2 N) (some (ρ x, ρ)) := by
  obtain ⟨i, hi⟩ := Option.isSome_iff_exists.mp (List.isSome_idxOf?.mpr hx)
  have hstep : step prog ⟨.envtFrame outer binds, [.lookupVar x] ++ k, M⟩ =
      some ⟨.envtFrame outer binds, k, M.setValue (ρ x)⟩ := by
    rw [← h x hx, valueOf_of_idxOf? hi]
    simp only [step, List.singleton_append, lookupvar, lookupvar', hi]
    rfl
  exact .step_left hstep (.now (.setValue h (ρ x)))

/-- `NewBind` and `ReBind`, with the `Nop` behind them. -/
theorem follows_bind {i : Code} (hi : i = .newBind x ∨ i = .reBind x) (hx : x ∈ binds)
    (h : After b outer binds M v ρ M') :
    Follows prog (.envtFrame outer binds) ⟨.envtFrame outer binds, [i, .nop] ++ k, M'⟩ k
      (fun r N => After b outer binds M r.1 r.2 N) (some (v, Function.update ρ x v)) := by
  obtain ⟨o, ho⟩ := Option.isSome_iff_exists.mp (List.isSome_idxOf?.mpr hx)
  have hstep : step prog ⟨.envtFrame outer binds, [i, .nop] ++ k, M'⟩ =
      some ⟨.envtFrame outer binds, .nop :: k, M'.bindVar o⟩ := by
    rcases hi with rfl | rfl
    · change Option.map _ ((binds.idxOf? x).map _) = _
      rw [ho]
      rfl
    · change Option.map _ ((binds.idxOf? x).map _) = _
      rw [ho]
      rfl
  exact .step_left hstep (.step_left rfl (.now (h.bindVar ho)))

/-- A jump to a label that stands in front of `k`. -/
theorem follows_goto {P : α → Svm → Prop} {r : Option α} (hlabel : LinkedIn prog env k (.label l))
    (k' : List Code) (h : Follows prog env ⟨env, k, M⟩ k P r) :
    Follows prog env ⟨env, [.goto l] ++ k', M⟩ k P r := by
  rw [LinkedIn] at hlabel
  refine .step_left ?_ h
  simp only [step, List.cons_append, hlabel, Option.map_some]

/-- The parts of a pair are what the builtin functions take. -/
theorem schemeCar_of_carOf {w : Val} (h : carOf v = some w) : schemeCar v = w := by
  unfold carOf at h
  split at h <;> cases h <;> rfl

theorem schemeCdr_of_cdrOf {w : Val} (h : cdrOf v = some w) : schemeCdr v = w := by
  unfold cdrOf at h
  split at h <;> cases h <;> rfl

/-- The call of a builtin function, which leaves the registers `upd v` with its value. -/
theorem follows_of_callBuiltin {o : Option Val} (upd : Val → Svm)
    (h : ∀ v, o = some v → callBuiltin f argc M' = some (upd v))
    (hafter : ∀ v, After b outer binds M v ρ
      { upd v with stackTop := (upd v).stackTop + (argc : ℤ) }) :
    Follows prog (.envtFrame outer binds) ⟨.envtFrame outer binds,
        [.callBuiltin (.sym f) argc, .moveSp argc, .blankLn] ++ k, M'⟩ k
      (fun r N => After b outer binds M r.1 r.2 N) (o.map fun v => (v, ρ)) := by
  cases o with
  | none => trivial
  | some v =>
    have hstep : step prog ⟨.envtFrame outer binds,
        [.callBuiltin (.sym f) argc, .moveSp argc, .blankLn] ++ k, M'⟩ =
        some ⟨.envtFrame outer binds, [.moveSp argc, .blankLn] ++ k, upd v⟩ := by
      change (callBuiltin f argc M').map _ = _
      rw [h v rfl]
      rfl
    exact .step_left hstep (.step_left rfl (.step_left rfl (.now (hafter v))))

/-- **A call of a builtin function** does what the function does, and takes the operands off the
stack. -/
theorem follows_call {fn : Option Sym} {g : Sym} (hg : fn = some g)
    (hcall : Callable b fn vs.length) (h : Pushed outer binds M vs ρ M') :
    Follows prog (.envtFrame outer binds) ⟨.envtFrame outer binds,
        [.callBuiltin g vs.length, .moveSp vs.length, .blankLn] ++ k, M'⟩ k
      (fun r N => After b outer binds M r.1 r.2 N) ((applyBuiltin fn vs).map fun v => (v, ρ)) := by
  subst hg
  cases g with
  | nil => exact hcall.elim
  | sym f =>
    have hpart : 0 < vs.length → ∀ {part : Val → Option Val} {take : Val → Val},
        (∀ {v w}, part v = some w → take v = w) →
        callBuiltin f vs.length M' = some { M' with value := take (M'.stack M'.stackTop) } →
        Follows prog (.envtFrame outer binds) ⟨.envtFrame outer binds,
          [.callBuiltin (.sym f) vs.length, .moveSp vs.length, .blankLn] ++ k, M'⟩ k
          (fun r N => After b outer binds M r.1 r.2 N)
          ((vs.getLast?.bind part).map fun v => (v, ρ)) := by
      intro hpos part take htake hbuiltin
      obtain ⟨w, hw⟩ : ∃ w, vs.getLast? = some w :=
        ⟨_, List.getLast?_eq_some_getLast (List.length_pos_iff.mp hpos)⟩
      rw [h.top_eq hw] at hbuiltin
      rw [hw, Option.bind_some]
      refine follows_of_callBuiltin (fun v => { M' with value := v }) (fun v hv => ?_)
        fun v => ⟨rfl, h.vars, h.cont, fun _ => ⟨?_, h.cells⟩⟩
      · rw [hbuiltin, htake hv]
      · change M'.stackTop + (vs.length : ℤ) = M.stackTop
        rw [h.top]
        omega
    rcases hcall with ⟨rfl | rfl, hpos⟩ | ⟨rfl, rfl⟩
    · exact hpart hpos schemeCar_of_carOf rfl
    · exact hpart hpos schemeCdr_of_cdrOf rfl
    · have hsum := sumStack_eq h.vals
      by_cases hnil : vs = []
      · subst hnil
        refine follows_of_callBuiltin (fun v => { M' with value := v }) (fun v hv => ?_)
          fun v => ⟨rfl, h.vars, h.cont, fun hb => Bool.noConfusion hb⟩
        cases hv
        rfl
      · refine follows_of_callBuiltin (fun v => { M' with
            value := v
            stack := Function.update M'.stack M'.stackTop v
            stackTop := M'.stackTop + vs.length }) (fun v hv => ?_)
          fun v => ⟨rfl, h.vars, h.cont, fun hb => Bool.noConfusion hb⟩
        obtain ⟨ns, hns, rfl⟩ := Option.map_eq_some_iff.mp hv
        rw [hns, Option.map_some] at hsum
        change (if vs.length = 0 then _ else some _) = _
        rw [if_neg fun hzero => hnil (List.length_eq_zero_iff.mp hzero), hsum]
        rfl

/-! ## Compiled code -/

mutual

theorem length_evaluateArgs : (es : List Expr) → {ρ ρ' : Sym → Val} → {vs : List Val} →
    evaluateArgs ρ es = some (vs, ρ') → vs.length = es.length
  | [], _, _, _, h => by
    cases h
    rfl
  | e :: es, _, _, _, h => by
    rw [evaluateArgs] at h
    obtain ⟨r, -, h⟩ := Option.bind_eq_some_iff.mp h
    obtain ⟨q, hq, h⟩ := Option.map_eq_some_iff.mp h
    cases h
    rw [List.length_cons, List.length_cons, length_evaluateArgs es hq]

end

mutual

/-- **The code of an expression** does what its evaluation does. -/
theorem follows_expr : (e : Expr) → {b istail : Bool} → {n m : ℕ} → {c k : List Code} →
    {ρ : Sym → Val} → compileExprM istail e n = some (c, m) →
    Linked prog (.envtFrame outer binds) k c → Straight b binds e → (M : Svm) →
    M.Holds outer binds ρ →
      Follows prog (.envtFrame outer binds) ⟨.envtFrame outer binds, c ++ k, M⟩ k
        (fun r N => After b outer binds M r.1 r.2 N) (evaluate ρ e)
  | .variable x, _, _, _, _, _, _, _, h, _, hs, M, hM => by
    obtain ⟨rfl, rfl⟩ := emits_variable.mp h
    rw [Straight] at hs
    rw [evaluate]
    exact follows_lookupVar hM hs
  | .quote d, _, _, _, _, _, _, _, h, _, hs, M, hM => by
    obtain ⟨rfl, rfl⟩ := emits_quote.mp h
    rw [evaluate]
    exact follows_fetchConst hM hs
  | .selfEval d, _, _, _, _, _, _, _, h, _, hs, M, hM => by
    obtain ⟨rfl, rfl⟩ := emits_selfEval.mp h
    rw [evaluate]
    exact follows_fetchConst hM hs
  | .procCall func args, b, istail, n, m, c, k, ρ, h, hlinked, hs, M, hM => by
    rw [Straight] at hs
    obtain ⟨hargs, hcall⟩ := hs
    cases hfn : builtinSym func with
    | none =>
      rw [hfn] at hcall
      exact hcall.elim
    | some g =>
      obtain ⟨cs, hcs, rfl⟩ := (emits_builtin hfn).mp h
      rw [linked_append] at hlinked
      rw [evaluate, List.append_assoc]
      refine (follows_args args hcs hlinked.1 hargs M hM).bind fun r N hr hN => ?_
      have hlen := length_evaluateArgs args hr
      rw [← hlen] at hcall ⊢
      exact follows_call hfn hcall hN
  | .sequence es, _, _, _, _, _, _, _, h, hlinked, hs, M, hM => by
    obtain ⟨cs, hcs, rfl⟩ := emits_sequence.mp h
    rw [Straight] at hs
    rw [evaluate]
    exact follows_seq es hcs hlinked hs.2 M hM fun hnil => absurd hnil hs.1
  | .defvar x e, _, _, _, _, _, _, _, h, hlinked, hs, M, hM => by
    obtain ⟨c, hc, rfl⟩ := emits_defvar.mp h
    rw [linked_append] at hlinked
    rw [Straight] at hs
    rw [evaluate, List.append_assoc]
    exact (follows_expr e hc hlinked.1 hs.2 M hM).map fun r N hN =>
      follows_bind (.inl rfl) hs.1 hN
  | .assign x e, _, _, _, _, _, _, _, h, hlinked, hs, M, hM => by
    obtain ⟨c, hc, rfl⟩ := emits_assign.mp h
    rw [linked_append] at hlinked
    rw [Straight] at hs
    rw [evaluate, List.append_assoc]
    exact (follows_expr e hc hlinked.1 hs.2 M hM).map fun r N hN =>
      follows_bind (.inr rfl) hs.1 hN
  | .branch test thenExp elseExp, _, _, _, _, _, k, _, h, hlinked, hs, M, hM => by
    obtain ⟨cTest, _, cThen, _, cElse, hTest, hThen, hElse, rfl⟩ := emits_branch.mp h
    rw [linked_append, linked_singleton, LinkedIn] at hlinked
    obtain ⟨hlTest, hlThen, hlElse⟩ := hlinked
    rw [Straight] at hs
    rw [evaluate, List.append_assoc]
    refine (follows_expr test hTest hlTest hs.1 M hM).bind fun r N _ hN => .step_left rfl ?_
    rw [hN.value]
    split_ifs
    · exact (follows_expr elseExp hElse hlElse hs.2.2 N hN.vars).mono fun _ _ => hN.trans
    · exact (follows_expr thenExp hThen hlThen hs.2.1 N hN.vars).mono fun _ _ => hN.trans
  | .cond clauses, _, _, n, _, _, k, _, h, hlinked, hs, M, hM => by
    obtain ⟨c', hc', rfl⟩ := emits_cond.mp h
    rw [linked_append, Linked, linked_singleton] at hlinked
    obtain ⟨hlinked, -, hlabel⟩ := hlinked
    rw [Straight] at hs
    rw [evaluate, List.append_assoc]
    exact follows_clauses clauses hc' hlinked hlabel hs M hM
  | .and [], _, _, _, _, _, _, _, h, _, _, M, hM => by
    obtain ⟨rfl, rfl⟩ := emits_and_nil.mp h
    rw [evaluate]
    exact follows_fetchConst hM trivial
  | .and (e :: es), _, _, _, _, _, _, _, h, hlinked, hs, M, hM => by
    obtain ⟨cs, l, hcs, rfl, rfl⟩ := emits_and.mp h
    rw [linked_append, linked_singleton] at hlinked
    rw [Straight] at hs
    rw [evaluate, List.append_assoc]
    refine follows_until (e :: es) hcs hlinked.1 hlinked.2 hs (List.cons_ne_nil e es) ?_ ?_ M hM
    · exact fun k N => by cases hN : falsep N.value <;> simp [step, hN]
    · decide
  | .or [], _, _, _, _, _, _, _, h, _, _, M, hM => by
    obtain ⟨rfl, rfl⟩ := emits_or_nil.mp h
    rw [evaluate]
    exact follows_fetchConst hM trivial
  | .or (e :: es), _, _, _, _, _, _, _, h, hlinked, hs, M, hM => by
    obtain ⟨cs, l, hcs, rfl, rfl⟩ := emits_or.mp h
    rw [linked_append, linked_singleton] at hlinked
    rw [Straight] at hs
    rw [evaluate, List.append_assoc]
    refine follows_until (e :: es) hcs hlinked.1 hlinked.2 hs (List.cons_ne_nil e es) ?_ ?_ M hM
    · exact fun k N => by cases hN : falsep N.value <;> simp [step, hN]
    · decide
  | .lambda _ _, _, _, _, _, _, _, _, _, _, hs, _, _ => hs.elim
  | .defun _ _ _, _, _, _, _, _, _, _, _, _, hs, _, _ => hs.elim
  | .defun2 _ _ _ _, _, _, _, _, _, _, _, _, _, hs, _, _ => hs.elim
  | .case _ _ _, _, _, _, _, _, _, _, _, _, hs, _, _ => hs.elim
  | .let _ _, _, _, _, _, _, _, _, _, _, hs, _, _ => hs.elim

theorem follows_seq : (es : List Expr) → {b istail : Bool} → {n m : ℕ} →
    {cs : List (List Code)} → {k : List Code} → {ρ : Sym → Val} → {v : Val} →
    compileSeq istail es n = some (cs, m) → Linked prog (.envtFrame outer binds) k cs.flatten →
    AllStraight b binds es → (M : Svm) → M.Holds outer binds ρ → (es = [] → v = M.value) →
      Follows prog (.envtFrame outer binds) ⟨.envtFrame outer binds, cs.flatten ++ k, M⟩ k
        (fun r N => After b outer binds M r.1 r.2 N) (evaluateSeq ρ v es)
  | [], _, _, _, _, _, _, _, _, h, _, _, M, hM, hv => by
    obtain ⟨rfl, rfl⟩ := emits_seq_nil.mp h
    rw [evaluateSeq, hv rfl]
    exact .now (.setValue hM M.value)
  | e :: es, _, _, _, _, _, _, _, _, h, hlinked, hs, M, hM, _ => by
    obtain ⟨c, _, cs, hc, hcs, rfl⟩ := emits_seq_cons.mp h
    rw [List.flatten_cons, linked_append] at hlinked
    rw [AllStraight] at hs
    rw [List.flatten_cons, evaluateSeq, List.append_assoc]
    refine (follows_expr e hc hlinked.1 hs.1 M hM).bind fun r N _ hN => ?_
    exact (follows_seq es hcs hlinked.2 hs.2 N hN.vars fun _ => hN.value.symm).mono
      fun _ _ => hN.trans

/-- Operands are pushed one after the other. -/
theorem follows_args : (es : List Expr) → {n m : ℕ} → {cs : List (List Code)} → {k : List Code} →
    {ρ : Sym → Val} → compileSeq false es n = some (cs, m) →
    Linked prog (.envtFrame outer binds) k (withTail [.push, .blankLn] cs) →
    AllStraight false binds es → (M : Svm) → M.Holds outer binds ρ →
      Follows prog (.envtFrame outer binds)
        ⟨.envtFrame outer binds, withTail [.push, .blankLn] cs ++ k, M⟩ k
        (fun r N => Pushed outer binds M r.1 r.2 N) (evaluateArgs ρ es)
  | [], _, _, _, _, _, h, _, _, M, hM => by
    obtain ⟨rfl, rfl⟩ := emits_seq_nil.mp h
    rw [evaluateArgs]
    exact .now (.nil hM)
  | e :: es, _, _, _, k, _, h, hlinked, hs, M, hM => by
    obtain ⟨c, _, cs, hc, hcs, rfl⟩ := emits_seq_cons.mp h
    rw [withTail_cons, linked_append, linked_append] at hlinked
    rw [AllStraight] at hs
    rw [withTail_cons, evaluateArgs, List.append_assoc, List.append_assoc]
    have hc' : Linked prog (.envtFrame outer binds)
        ([.push, .blankLn] ++ (withTail [.push, .blankLn] cs ++ k)) c := by
      simpa using hlinked.1.1
    refine (follows_expr e hc hc' hs.1 M hM).bind fun r N _ hN => ?_
    refine .step_left rfl (.step_left rfl ?_)
    exact (follows_args es hcs hlinked.2 hs.2 N.push hN.vars).map fun q L hL =>
      .now (.cons hN hL)

/-- The operands of `and` and `or`, with the test `t` after each but the last, which jumps to the
label `l` behind them. -/
theorem follows_until : (es : List Expr) → {b istail : Bool} → {n m l : ℕ} →
    {cs : List (List Code)} → {k : List Code} → {stop : Bool} → {t : Code} → {ρ : Sym → Val} →
    {v : Val} → compileSeq istail es n = some (cs, m) →
    Linked prog (.envtFrame outer binds) ([.label l] ++ k) (removeLast (withTail [t] cs)) →
    LinkedIn prog (.envtFrame outer binds) k (.label l) → AllStraight b binds es → es ≠ [] →
    (∀ k N, step prog ⟨.envtFrame outer binds, t :: k, N⟩ = some ⟨.envtFrame outer binds,
      (if falsep N.value = stop then [.goto l] else []) ++ k, N⟩) →
    falsep v ≠ stop → (M : Svm) → M.Holds outer binds ρ →
      Follows prog (.envtFrame outer binds)
        ⟨.envtFrame outer binds, removeLast (withTail [t] cs) ++ ([.label l] ++ k), M⟩ k
        (fun r N => After b outer binds M r.1 r.2 N) (evaluateUntil ρ stop v es)
  | [], _, _, _, _, _, _, _, _, _, _, _, _, _, _, _, hne, _, _, _, _ => absurd rfl hne
  | e :: es, _, _, _, _, _, _, _, stop, t, _, _, h, hlinked, hlabel, hs, _, ht, hv, M, hM => by
    obtain ⟨c, _, cs, hc, hcs, rfl⟩ := emits_seq_cons.mp h
    rw [AllStraight] at hs
    rw [removeLast_withTail_cons] at hlinked ⊢
    rw [evaluateUntil_cons hv]
    cases es with
    | nil =>
      -- the last operand is not tested, and the label is next
      obtain ⟨rfl, -⟩ := emits_seq_nil.mp hcs
      rw [if_pos rfl] at hlinked ⊢
      refine (follows_expr e hc hlinked hs.1 M hM).bind fun r N _ hN => ?_
      rw [evaluateUntil]
      exact .step_left rfl (.now hN)
    | cons e' es =>
      have hne := ne_nil_of_compileSeq hcs
      rw [if_neg hne, linked_append, Linked] at hlinked
      rw [if_neg hne, List.append_assoc]
      refine (follows_expr e hc hlinked.1 hs.1 M hM).bind fun r N _ hN => ?_
      refine .step_left (ht _ _) ?_
      rw [hN.value]
      by_cases hr : falsep r.1 = stop
      · -- the jump out of the block goes behind the label
        rw [if_pos hr, evaluateUntil_of_eq hr]
        exact follows_goto hlabel _ (.now hN)
      · rw [if_neg hr, List.nil_append]
        exact (follows_until (e' :: es) hcs hlinked.2.2 hlabel hs.2 (List.cons_ne_nil e' es) ht hr
          N hN.vars).mono fun _ _ => hN.trans

/-- The clauses of `cond`, with the label `l` behind them. -/
theorem follows_clauses : (clauses : List (Expr × List Expr)) → {b istail : Bool} →
    {l n m : ℕ} → {c k : List Code} → {ρ : Sym → Val} →
    compileClauses istail l clauses n = some (c, m) →
    Linked prog (.envtFrame outer binds) ([.fetchConst .void, .label l] ++ k) c →
    LinkedIn prog (.envtFrame outer binds) k (.label l) → ClausesStraight b binds clauses →
    (M : Svm) → M.Holds outer binds ρ →
      Follows prog (.envtFrame outer binds)
        ⟨.envtFrame outer binds, c ++ ([.fetchConst .void, .label l] ++ k), M⟩ k
        (fun r N => After b outer binds M r.1 r.2 N) (evaluateCond ρ clauses)
  | [], _, _, _, _, _, _, _, _, h, _, _, _, M, hM => by
    obtain ⟨rfl, rfl⟩ := emits_clauses_nil.mp h
    rw [evaluateCond]
    exact .step_left rfl (.step_left rfl (.now (.setValue hM (.const .void))))
  | (tst, seq) :: clauses, _, _, l, _, _, _, k, _, h, hlinked, hlabel, hs, M, hM => by
    obtain ⟨c, _, cs, _, rest, hc, hcs, hrest, rfl⟩ := emits_clauses_cons.mp h
    rw [linked_append, linked_append, linked_singleton, LinkedIn, linked_append] at hlinked
    obtain ⟨⟨hlTst, ⟨hlSeq, -⟩, -⟩, hlRest⟩ := hlinked
    rw [ClausesStraight] at hs
    rw [evaluateCond, List.append_assoc, List.append_assoc]
    refine (follows_expr tst hc hlTst hs.1 M hM).bind fun r N _ hN => .step_left rfl ?_
    rw [hN.value]
    split_ifs
    · exact (follows_clauses clauses hrest hlRest hlabel hs.2.2 N hN.vars).mono
        fun _ _ => hN.trans
    · -- the body ends with a jump out of the block
      rw [List.append_assoc]
      have hbody := follows_seq seq hcs hlSeq hs.2.1 N hN.vars fun _ => hN.value.symm
      exact hbody.and_then fun q L hL => follows_goto hlabel _ (.now (hN.trans hL))

end

/-! ## Programs -/

mutual

theorem supported_of_straight : (e : Expr) → {b : Bool} → Straight b binds e → Supported e
  | .variable _, _, _ => trivial
  | .quote _, _, _ => trivial
  | .selfEval _, _, _ => trivial
  | .procCall func args, _, h => by
    rw [Straight] at h
    refine ⟨allSupported_of_straight args h.1, ?_⟩
    cases hs : builtinSym func with
    | some s => exact supported_of_builtinSym hs
    | none => exact (hs ▸ h.2 : Callable _ none _).elim
  | .sequence es, _, h => allSupported_of_straight es h.2
  | .defvar _ e, _, h => supported_of_straight e h.2
  | .assign _ e, _, h => supported_of_straight e h.2
  | .branch test thenExp elseExp, _, h =>
    ⟨supported_of_straight test h.1, supported_of_straight thenExp h.2.1,
      supported_of_straight elseExp h.2.2⟩
  | .cond clauses, _, h => clausesSupported_of_straight clauses h
  | .and es, _, h => allSupported_of_straight es h
  | .or es, _, h => allSupported_of_straight es h
  | .lambda _ _, _, h => h.elim
  | .defun _ _ _, _, h => h.elim
  | .defun2 _ _ _ _, _, h => h.elim
  | .case _ _ _, _, h => h.elim
  | .let _ _, _, h => h.elim

theorem allSupported_of_straight : (es : List Expr) → {b : Bool} →
    AllStraight b binds es → AllSupported es
  | [], _, _ => trivial
  | e :: es, _, h => ⟨supported_of_straight e h.1, allSupported_of_straight es h.2⟩

theorem clausesSupported_of_straight : (clauses : List (Expr × List Expr)) → {b : Bool} →
    ClausesStraight b binds clauses → ClausesSupported clauses
  | [], _, _ => trivial
  | (tst, seq) :: clauses, _, h =>
    ⟨supported_of_straight tst h.1, allSupported_of_straight seq h.2.1,
      clausesSupported_of_straight clauses h.2.2⟩

end

end SchemeOs.Compiler
