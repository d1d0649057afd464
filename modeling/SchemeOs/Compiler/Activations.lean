import Mathlib.Algebra.BigOperators.Group.List.Basic
import SchemeOs.Compiler.Calls

/-!
# Compiler/Activations — calls and returns

What a run has called and not returned from: the procedures that are active, each with the calls
that it has begun.  A tail call ends the activation of its caller; any other call begins with
`PushCont`, which notes the registers, and its `Apply` activates the callee.  The program itself is
active first, entered with the continuation `scheme_return`.

The continuation chain is that of the pending calls, so a procedure returns to the last of them.
-/

namespace SchemeOs.Compiler

variable {prog : List Code} {s t : State} {a b : Activation} {g g' : List Activation}

/-! ## Activations

The calls that are under way, told from the steps alone: a call in tail position takes the place of
the activation that makes it. -/

/-- A call that has begun: the label behind its `Apply`, and the registers just before. -/
structure Call where
  label : ℕ
  envt : ℕ
  template : Option Template
  stackTop : ℤ
  cont : List Cont

/-- The continuation that the call pushes. -/
def Call.record (c : Call) : Cont := ⟨some c.label, c.envt, c.template, c.stackTop⟩

/-- An active procedure: the `reg_cont` it was entered with, the position right behind the `Apply`
of the call that it answers and its label, and the calls that it has begun, the last one first. -/
structure Activation where
  entry : List Cont
  after : Option (CompileTimeEnvt × List Code)
  pending : List Call

/-- The activations after a step in `s`, the current one first. -/
def State.record (s : State) (g : List Activation) : List Activation :=
  match s.code, g with
  | .pushCont l :: _, a :: g =>
    { a with pending :=
        ⟨l, s.svm.envt, s.svm.template, s.svm.stackTop, s.svm.cont⟩ :: a.pending } :: g
  | .apply :: .label _ :: k, g => ⟨s.svm.cont, some (s.env, k), []⟩ :: g
  | .apply :: _, a :: g => ⟨s.svm.cont, a.after, []⟩ :: g
  | .leaveProc :: _, _ :: b :: g => { b with pending := b.pending.tail } :: g
  | .leaveProc :: _, _ => []
  | _, g => g

/-- The activation of the program. -/
def Activation.main (prog : List Code) : Activation := ⟨(State.init prog).svm.cont, none, []⟩

/-- The activations after a run of the program that passes the states `as`. -/
def activations (prog : List Code) (as : List State) : List Activation :=
  as.foldl (fun g s => s.record g) [.main prog]

/-! ## The invariant

The code of each activation ends with a return, and the continuations hold the code behind the
calls that wait. -/

/-- The code makes the calls with the labels `labels`, which have been begun. -/
def Makes (prog : List Code) (env : CompileTimeEnvt) (labels : List ℕ) (code : List Code) : Prop :=
  ∃ part n ls, Balanced prog part env n ls code ∧ ls.map Prod.fst = labels

/-- The continuation chain: the calls that have begun, on what the procedure was entered with. -/
def Stacked (entry : List Cont) : List Call → List Cont → Prop
  | [], cont => cont = entry
  | c :: cs, cont => cont = c.record :: c.cont ∧ Stacked entry cs c.cont

/-- A procedure that was entered with `entry` and returns to `after` answers the last call that is
pending below it. -/
def Answers (prog : List Code) :
    List Cont → Option (CompileTimeEnvt × List Code) → List Activation → Prop
  | entry, after, [] => entry = (State.init prog).svm.cont ∧ after = none
  | entry, after, b :: g => ∃ c cs p, b.pending = c :: cs ∧ entry = c.record :: c.cont ∧
      after = some p ∧ findLabel c.label (topEnvt prog) [] prog = some p ∧
      Makes prog p.1 (cs.map Call.label) p.2 ∧ Stacked b.entry cs c.cont ∧
      Answers prog b.entry b.after g

/-- A closure's code is balanced. -/
def Val.Ok (prog : List Code) : Val → Prop
  | .closure t _ => Balanced prog .procedure t.env 0 [] t.code
  | _ => True

/-- All the values there are. -/
structure Svm.All (P : Val → Prop) (m : Svm) : Prop where
  value : P m.value
  stack : ∀ i, P (m.stack i)
  bindings : ∀ envt i, P (m.bindings envt i)

/-- The position, the continuation chain and the activations agree; there are none when the program
has returned. -/
def Agrees (prog : List Code) (s : State) : List Activation → Prop
  | [] => s.code = []
  | a :: g => Makes prog s.env (a.pending.map Call.label) s.code ∧
      Stacked a.entry a.pending s.svm.cont ∧ Answers prog a.entry a.after g ∧
        s.svm.All (Val.Ok prog)

/-! ## Steps -/

section

variable {P : Val → Prop} {m : Svm}

theorem Svm.All.setValue (h : m.All P) {v : Val} (hv : P v) : Svm.All P { m with value := v } :=
  ⟨hv, h.stack, h.bindings⟩

theorem Svm.All.push (h : m.All P) : m.push.All P where
  value := h.value
  stack := (Function.forall_update_iff m.stack fun _ v => P v).mpr
    ⟨h.value, fun i _ => h.stack i⟩
  bindings := h.bindings

theorem Svm.All.bindVar (h : m.All P) (offset : ℕ) : (m.bindVar offset).All P where
  value := h.value
  stack := h.stack
  bindings := by
    have hslots : ∀ i, P (Function.update (m.bindings m.envt) offset m.value i) :=
      (Function.forall_update_iff _ fun _ v => P v).mpr
        ⟨h.value, fun i _ => h.bindings m.envt i⟩
    exact (Function.forall_update_iff m.bindings fun _ slots => ∀ i, P (slots i)).mpr
      ⟨hslots, fun envt _ => h.bindings envt⟩

theorem Svm.All.mono {Q : Val → Prop} (h : m.All P) (hle : ∀ v, P v → Q v) : m.All Q :=
  ⟨hle _ h.value, fun i => hle _ (h.stack i), fun envt i => hle _ (h.bindings envt i)⟩

end

/-- A constant is no closure. -/
theorem Val.ofConst_ok (d : Datum) : (Val.ofConst d).Ok prog := by
  rw [Val.ofConst]
  cases emitted d <;> trivial

/-- The builtin functions make no closures, and leave the continuation alone. -/
theorem callBuiltin_ok {f : List Char} {argc : ℕ} {m m' : Svm}
    (h : callBuiltin f argc m = some m') (hm : m.All (Val.Ok prog)) :
    m'.cont = m.cont ∧ m'.All (Val.Ok prog) := by
  have hcar (v : Val) : (schemeCar v).Ok prog := by
    unfold schemeCar
    split <;> trivial
  have hcdr (v : Val) : (schemeCdr v).Ok prog := by
    unfold schemeCdr
    split <;> trivial
  have hsum (o : Option ℤ) : (sumVal o).Ok prog := by cases o <;> trivial
  unfold callBuiltin at h
  split_ifs at h with h₁ h₂ h₃ h₄ h₅
  · cases h
    exact ⟨rfl, hm.setValue (hcar _)⟩
  · cases h
    exact ⟨rfl, hm.setValue (hcdr _)⟩
  · cases h
    exact ⟨rfl, hm.setValue trivial⟩
  · cases h
    have hstack := (Function.forall_update_iff m.stack fun _ v => Val.Ok prog v).mpr
      ⟨hsum (sumStack m.stack m.stackTop argc), fun i (_ : i ≠ m.stackTop) => hm.stack i⟩
    exact ⟨rfl, hsum _, hstack, hm.bindings⟩
  · cases h
    exact ⟨rfl, hm⟩

/-- An instruction that begins and makes no call goes on to the next one. -/
theorem step_plain {env : CompileTimeEnvt} {i : Code} {k : List Code} {m : Svm}
    (hi : i.plain = true) (h : step prog ⟨env, i :: k, m⟩ = some t) (hm : m.All (Val.Ok prog)) :
    t.env = env ∧ t.code = k ∧ t.svm.cont = m.cont ∧ t.svm.All (Val.Ok prog) := by
  cases i, hi using Code.plain_cases with
  | fetchConst d =>
    cases h
    exact ⟨rfl, rfl, rfl, hm.setValue (Val.ofConst_ok d)⟩
  | lookupVar x =>
    obtain ⟨p, -, rfl⟩ := Option.map_eq_some_iff.mp h
    exact ⟨rfl, rfl, rfl, hm.setValue (hm.bindings _ _)⟩
  | label l =>
    cases h
    exact ⟨rfl, rfl, rfl, hm⟩
  | newBind x =>
    obtain ⟨p, -, rfl⟩ := Option.map_eq_some_iff.mp h
    exact ⟨rfl, rfl, rfl, hm.bindVar p.2⟩
  | reBind x =>
    obtain ⟨p, -, rfl⟩ := Option.map_eq_some_iff.mp h
    exact ⟨rfl, rfl, rfl, hm.bindVar p.2⟩
  | callBuiltin f argc =>
    cases f with
    | nil => cases h
    | sym f =>
      obtain ⟨m', hm', rfl⟩ := Option.map_eq_some_iff.mp h
      exact ⟨rfl, rfl, callBuiltin_ok hm' hm⟩
  | accStack n =>
    simp only [step] at h
    split_ifs at h
    cases h
    exact ⟨rfl, rfl, rfl, hm.setValue (hm.stack _)⟩
  | blankLn =>
    cases h
    exact ⟨rfl, rfl, rfl, hm⟩
  | nop =>
    cases h
    exact ⟨rfl, rfl, rfl, hm⟩

theorem record_plain {env : CompileTimeEnvt} {i : Code} {k : List Code} {m : Svm}
    (hi : i.plain = true) : State.record ⟨env, i :: k, m⟩ (a :: g) = a :: g := by
  cases i, hi using Code.plain_cases <;> rfl

/-- A call with no label behind it ends the activation of the caller. -/
theorem record_tailCall {env : CompileTimeEnvt} {k : List Code} {m : Svm}
    (hk : startsLabel k = false) :
    State.record ⟨env, .apply :: k, m⟩ (a :: g) = ⟨m.cont, a.after, []⟩ :: g := by
  cases k with
  | nil => rfl
  | cons i k =>
    cases i with
    | label _ => cases hk
    | _ => rfl

/-- What `Apply` does. -/
theorem step_apply {env : CompileTimeEnvt} {k : List Code} {m : Svm}
    (h : step prog ⟨env, .apply :: k, m⟩ = some t) : ∃ tpl envt, m.value = .closure tpl envt ∧
      t = ⟨tpl.env, tpl.code, { m with template := some tpl, envt := envt }⟩ := by
  simp only [step] at h
  split at h
  · next tpl envt hv =>
    cases h
    exact ⟨tpl, envt, hv, rfl⟩
  · cases h

/-- A procedure returns to the last continuation. -/
theorem step_leaveProc {env : CompileTimeEnvt} {k : List Code} {m : Svm} {c : Call}
    {p : CompileTimeEnvt × List Code} (hcont : m.cont = c.record :: c.cont)
    (hfind : findLabel c.label (topEnvt prog) [] prog = some p) :
    step prog ⟨env, .leaveProc :: k, m⟩ =
      some ⟨p.1, p.2, { m with envt := c.envt, template := c.template, cont := c.cont }⟩ := by
  simp only [step, hcont, Call.record, hfind, Option.map_some]

/-- The program itself ends. -/
theorem step_leaveProc_main {env : CompileTimeEnvt} {k : List Code} {m : Svm}
    (hcont : m.cont = (State.init prog).svm.cont) :
    step prog ⟨env, .leaveProc :: k, m⟩ =
      some ⟨env, [], { m with envt := globalEnvironment, template := none, cont := [] }⟩ := by
  simp only [step, hcont, State.init, Svm.pushContinuation, Svm.init]

/-- **A step** keeps the continuation chain and the activations in agreement. -/
theorem Agrees.step (h : Agrees prog s g) (hstep : step prog s = some t) :
    Agrees prog t (s.record g) := by
  obtain ⟨env, code, m⟩ := s
  cases g with
  | nil =>
    rw [Agrees] at h
    subst h
    cases hstep
  | cons a g =>
    obtain ⟨⟨part, n, ls, hcode, hls⟩, hstacked, hanswers, hok⟩ := h
    cases hcode with
    | nil _ => cases hstep
    | plain hi hk =>
      obtain ⟨rfl, rfl, hcont, hok'⟩ := step_plain hi hstep hok
      rw [record_plain hi]
      exact ⟨⟨part, n, ls, hk, hls⟩, hcont ▸ hstacked, hanswers, hok'⟩
    | push hk =>
      cases hstep
      exact ⟨⟨part, _, ls, hk, hls⟩, hstacked, hanswers, hok.push⟩
    | moveSp argc hk =>
      cases hstep
      exact ⟨⟨part, _, ls, hk, hls⟩, hstacked, hanswers, hok.value, hok.stack, hok.bindings⟩
    | makeClosure hbody hk =>
      cases hstep
      exact ⟨⟨part, n, ls, hk, hls⟩, hstacked, hanswers, hok.setValue hbody⟩
    | ifTrue hcon halt =>
      cases hstep
      refine ⟨⟨part, n, ls, ?_, hls⟩, hstacked, hanswers, hok⟩
      dsimp only
      split_ifs
      · exact halt
      · exact hcon
    | ifFalse hcon halt =>
      cases hstep
      refine ⟨⟨part, n, ls, ?_, hls⟩, hstacked, hanswers, hok⟩
      dsimp only
      split_ifs
      · exact hcon
      · exact halt
    | goto hfind hk =>
      simp only [Compiler.step, hfind, Option.map_some, Option.some.injEq] at hstep
      subst hstep
      exact ⟨⟨part, n, ls, hk, hls⟩, hstacked, hanswers, hok⟩
    | pushCont _ hk =>
      cases hstep
      refine ⟨⟨part, n, _, hk, ?_⟩, ⟨rfl, hstacked⟩, hanswers, hok.value, hok.stack, hok.bindings⟩
      rw [List.map_cons, List.map_cons, hls]
    | @call _ _ _ _ ls l k hfind hk =>
      -- the callee answers the call that was begun last
      obtain ⟨c, cs, hpending, rfl, hcs⟩ := List.map_eq_cons_iff.mp hls.symm
      rw [hpending] at hstacked
      obtain ⟨hcont, hstacked⟩ := hstacked
      obtain ⟨tpl, envt, hv, rfl⟩ := step_apply hstep
      have hbody : Val.Ok prog m.value := hok.value
      rw [hv] at hbody
      refine ⟨⟨.procedure, 0, [], hbody, rfl⟩, rfl, ?_, hok.value, hok.stack, hok.bindings⟩
      exact ⟨c, cs, (env, k), hpending, hcont, rfl, hfind, ⟨part, _, ls, hk, hcs.symm⟩, hstacked,
        hanswers⟩
    | tailCall _ hk =>
      -- no call has begun, so the chain is what the caller was entered with
      have hpending : a.pending = [] := List.map_eq_nil_iff.mp hls.symm
      rw [hpending] at hstacked
      rw [record_tailCall hk]
      obtain ⟨tpl, envt, hv, rfl⟩ := step_apply hstep
      have hbody : Val.Ok prog m.value := hok.value
      rw [hv] at hbody
      refine ⟨⟨.procedure, 0, [], hbody, rfl⟩, rfl, ?_, hok.value, hok.stack, hok.bindings⟩
      rw [Stacked] at hstacked
      rw [hstacked]
      exact hanswers
    | leaveProc =>
      have hpending : a.pending = [] := List.map_eq_nil_iff.mp hls.symm
      rw [hpending, Stacked] at hstacked
      have hcont : m.cont = a.entry := hstacked
      cases g with
      | nil =>
        rw [step_leaveProc_main (hcont.trans hanswers.1)] at hstep
        cases hstep
        rfl
      | cons b g =>
        obtain ⟨c, cs, p, hb, hentry, -, hfind, hk, hstacked', hanswers⟩ := hanswers
        rw [step_leaveProc (hcont.trans hentry) hfind] at hstep
        cases hstep
        refine ⟨?_, ?_, hanswers, hok.value, hok.stack, hok.bindings⟩
        · simpa [hb] using hk
        · simpa [hb] using hstacked'

/-! ## Runs -/

theorem agrees_init {exps : List Expr} (h : compile exps = some prog) :
    Agrees prog (.init prog) [.main prog] :=
  ⟨⟨.program, 0, [], balanced_compile h, rfl⟩, rfl, ⟨rfl, rfl⟩, trivial, fun _ => trivial,
    fun _ _ => trivial⟩

/-- **A run** keeps the continuation chain and the activations in agreement. -/
theorem Agrees.run {as : List State} (h : Agrees prog s g) (hrun : Runs (Steps prog) s as t) :
    Agrees prog t (as.foldl (fun g s => s.record g) g) := by
  induction hrun generalizing g with
  | nil s => exact h
  | cons hstep _ ih =>
    obtain ⟨rfl, hstep⟩ := hstep
    exact ih (h.step hstep)

/-- The first activation goes on or is replaced, or one is added, or it ends. -/
theorem Agrees.record_cases (h : Agrees prog s (a :: g)) :
    (∃ a', s.record (a :: g) = a' :: g ∧ a'.entry = a.entry) ∨
      (∃ a', s.record (a :: g) = a' :: a :: g) ∨
      (∃ b g', g = b :: g' ∧ s.record (a :: g) = { b with pending := b.pending.tail } :: g') ∨
      s.record (a :: g) = [] := by
  obtain ⟨env, code, m⟩ := s
  obtain ⟨⟨part, n, ls, hcode, hls⟩, hstacked, -, -⟩ := h
  cases hcode with
  | nil _ => exact .inl ⟨a, rfl, rfl⟩
  | plain hi _ => exact .inl ⟨a, record_plain hi, rfl⟩
  | push _ => exact .inl ⟨a, rfl, rfl⟩
  | moveSp _ _ => exact .inl ⟨a, rfl, rfl⟩
  | makeClosure _ _ => exact .inl ⟨a, rfl, rfl⟩
  | ifTrue _ _ => exact .inl ⟨a, rfl, rfl⟩
  | ifFalse _ _ => exact .inl ⟨a, rfl, rfl⟩
  | goto _ _ => exact .inl ⟨a, rfl, rfl⟩
  | pushCont _ _ => exact .inl ⟨_, rfl, rfl⟩
  | call _ _ => exact .inr (.inl ⟨_, rfl⟩)
  | tailCall _ hk =>
    rw [List.map_eq_nil_iff.mp hls.symm] at hstacked
    exact .inl ⟨_, record_tailCall hk, hstacked⟩
  | leaveProc =>
    cases g with
    | nil => exact .inr (.inr (.inr rfl))
    | cons b g => exact .inr (.inr (.inl ⟨b, g, rfl, rfl⟩))

/-! ## The continuation chain

Its length at a call, and when the procedure returns. -/

theorem Stacked.length {entry cont : List Cont} {cs : List Call} (h : Stacked entry cs cont) :
    cont.length = cs.length + entry.length := by
  induction cs generalizing cont with
  | nil =>
    rw [Stacked] at h
    rw [h, List.length_nil, Nat.zero_add]
  | cons c cs ih =>
    rw [Stacked] at h
    rw [h.1, List.length_cons, List.length_cons, ih h.2]
    omega

theorem Answers.length {entry : List Cont} {after : Option (CompileTimeEnvt × List Code)}
    (h : Answers prog entry after g) :
    entry.length = (g.map fun a => a.pending.length).sum + 1 := by
  induction g generalizing entry after with
  | nil =>
    rw [h.1]
    rfl
  | cons b g ih =>
    obtain ⟨c, cs, p, hb, hentry, -, -, -, hstacked, hanswers⟩ := h
    rw [hentry, List.map_cons, List.sum_cons, hb, List.length_cons, List.length_cons,
      hstacked.length, ih hanswers]
    omega

/-- The activation with `d` others below it was entered with `entry`. -/
def EnteredWith (d : ℕ) (entry : List Cont) : List Activation → Prop
  | [] => False
  | a :: g => (g.length = d ∧ a.entry = entry) ∨ EnteredWith d entry g

variable {d : ℕ} {entry : List Cont}

theorem EnteredWith.lt (h : EnteredWith d entry g) : d < g.length := by
  induction g with
  | nil => exact h.elim
  | cons a g ih =>
    rcases h with ⟨rfl, -⟩ | h
    · exact Nat.lt_succ_self _
    · exact Nat.lt_succ_of_lt (ih h)

/-- As long as the procedure, or one that it has called by a tail call, is active, what it was
entered with stays. -/
theorem EnteredWith.step (h : EnteredWith d entry g) (hagrees : Agrees prog s g)
    (hlt : d < (s.record g).length) : EnteredWith d entry (s.record g) := by
  cases g with
  | nil => exact h.elim
  | cons a g =>
    rcases hagrees.record_cases with ⟨a', hrec, ha'⟩ | ⟨a', hrec⟩ | ⟨b, g', rfl, hrec⟩ | hrec
    · rw [hrec]
      exact h.imp_left fun hd => ⟨hd.1, ha'.trans hd.2⟩
    · rw [hrec]
      exact .inr h
    · rw [hrec] at hlt ⊢
      rcases h with ⟨hd, -⟩ | h
      · rw [List.length_cons] at hlt hd
        omega
      · exact h
    · rw [hrec] at hlt
      exact absurd hlt (Nat.not_lt_zero d)

theorem EnteredWith.run {as : List State} (h : EnteredWith d entry g) (hagrees : Agrees prog s g)
    (hrun : Runs (Steps prog) s as t)
    (hlt : ∀ bs, bs <+: as → d < (bs.foldl (fun g s => s.record g) g).length) :
    EnteredWith d entry (as.foldl (fun g s => s.record g) g) := by
  induction hrun generalizing g with
  | nil s => exact h
  | @cons s t u a as hstep _ ih =>
    obtain ⟨rfl, hstep⟩ := hstep
    refine ih (h.step hagrees ?_) (hagrees.step hstep) fun bs hbs => ?_
    · exact hlt [a] (List.prefix_append [a] as)
    · exact hlt (a :: bs) (List.cons_prefix_cons.mpr ⟨rfl, hbs⟩)

/-! ## Calls and returns -/

/-- What calls and returns do in the state `s`, where the activations are `g`. -/
structure Orderly (prog : List Code) (s : State) (g : List Activation) : Prop where
  /-- A call in tail position enters the callee with what its caller was entered with. -/
  tailCall : ∀ k t, s.code = .apply :: k → startsLabel k = false → step prog s = some t →
    ∃ a rest, g = a :: rest ∧ t.svm.cont = a.entry ∧
      s.record g = ⟨t.svm.cont, a.after, []⟩ :: rest
  /-- Any other call enters it with one continuation more than there was when the call began. -/
  call : ∀ l k t, s.code = .apply :: .label l :: k → step prog s = some t →
    ∃ a rest c cs, g = a :: rest ∧ a.pending = c :: cs ∧ c.label = l ∧
      t.svm.cont = c.record :: c.cont ∧ s.record g = ⟨t.svm.cont, some (s.env, k), []⟩ :: g
  /-- A procedure returns behind the `Apply` of the last pending call, with the registers that
  there were when that began. -/
  leaveProc : ∀ k, s.code = .leaveProc :: k → ∃ a rest, g = a :: rest ∧ s.svm.cont = a.entry ∧
    ∀ b rest', rest = b :: rest' → ∃ c cs p, b.pending = c :: cs ∧ a.after = some p ∧
      step prog s = some
        ⟨p.1, p.2, { s.svm with envt := c.envt, template := c.template, cont := c.cont }⟩
  /-- The continuation chain has one continuation for each pending call, on `scheme_return`. -/
  length : g ≠ [] → s.svm.cont.length = (g.map fun a => a.pending.length).sum + 1

theorem Agrees.orderly (h : Agrees prog s g) : Orderly prog s g := by
  obtain ⟨env, code, m⟩ := s
  cases g with
  | nil =>
    rw [Agrees] at h
    subst h
    exact ⟨nofun, nofun, nofun, fun hnil => absurd rfl hnil⟩
  | cons a g =>
    obtain ⟨⟨part, n, ls, hcode, hls⟩, hstacked, hanswers, -⟩ := h
    refine ⟨?_, ?_, ?_, fun _ => ?_⟩
    · rintro k t rfl hk hstep
      have hcont : t.svm.cont = m.cont := by
        obtain ⟨tpl, envt, -, rfl⟩ := step_apply hstep
        rfl
      cases hcode with
      | plain hi _ => cases hi
      | call _ _ => cases hk
      | tailCall _ _ =>
        rw [List.map_eq_nil_iff.mp hls.symm] at hstacked
        refine ⟨a, g, rfl, hcont.trans hstacked, ?_⟩
        rw [record_tailCall hk, hcont]
    · rintro l k t rfl hstep
      have hcont : t.svm.cont = m.cont := by
        obtain ⟨tpl, envt, -, rfl⟩ := step_apply hstep
        rfl
      cases hcode with
      | plain hi _ => cases hi
      | tailCall _ hk => cases hk
      | call _ _ =>
        obtain ⟨c, cs, hpending, hlabel, -⟩ := List.map_eq_cons_iff.mp hls.symm
        rw [hpending] at hstacked
        refine ⟨a, g, c, cs, rfl, hpending, hlabel, hcont.trans hstacked.1, ?_⟩
        rw [hcont]
        rfl
    · rintro k rfl
      cases hcode with
      | plain hi _ => cases hi
      | leaveProc =>
        rw [List.map_eq_nil_iff.mp hls.symm] at hstacked
        refine ⟨a, g, rfl, hstacked, ?_⟩
        rintro b rest rfl
        obtain ⟨c, cs, p, hb, hentry, hafter, hfind, -⟩ := hanswers
        exact ⟨c, cs, p, hb, hafter, step_leaveProc (hstacked.trans hentry) hfind⟩
    · rw [hstacked.length, hanswers.length, List.map_cons, List.sum_cons, Nat.add_assoc]

/-- **Calls and returns of a compiled program.**  Exactly the calls in tail position have no label
behind them, and every state of every run is orderly.  From the entry of a procedure on, as long as
it or one it leads to by tail calls is active, the continuation chain at every entry is the same. -/
theorem orderly_of_run {exps : List Expr} (h : compile exps = some prog) :
    applies prog = tailCallsSeq true exps ∧
    (∀ as s, Runs (Steps prog) (.init prog) as s → Orderly prog s (activations prog as)) ∧
    ∀ as s a g, Runs (Steps prog) (.init prog) as s → activations prog as = a :: g →
      ∀ bs t b g', Runs (Steps prog) s bs t → activations prog (as ++ bs) = b :: g' →
      (∀ cs, cs <+: bs → g.length < (activations prog (as ++ cs)).length) →
      g'.length = g.length → a.pending = [] → b.pending = [] → t.svm.cont = s.svm.cont := by
  have hinit := agrees_init h
  refine ⟨?_, fun as s hrun => (hinit.run hrun).orderly, ?_⟩
  · obtain ⟨⟨code, m⟩, hcode, rfl⟩ := Option.map_eq_some_iff.mp h
    exact (applies_expr _ hcode).1
  · intro as s a g hrun hg bs t b g' hrun' hg' hlt hlen ha hb
    have hs : Agrees prog s (a :: g) := hg ▸ hinit.run hrun
    have ht : Agrees prog t (b :: g') := hg' ▸ hinit.run (hrun.append hrun')
    have hfold : ∀ cs, activations prog (as ++ cs) = cs.foldl (fun g s => s.record g) (a :: g) := by
      intro cs
      rw [← hg, activations, activations, List.foldl_append]
    have hentered : EnteredWith g.length a.entry (b :: g') := by
      rw [← hg', hfold]
      exact EnteredWith.run (.inl ⟨rfl, rfl⟩) hs hrun' fun cs hcs => hfold cs ▸ hlt cs hcs
    obtain ⟨-, hsCont, -, -⟩ := hs
    obtain ⟨-, htCont, -, -⟩ := ht
    rw [ha, Stacked] at hsCont
    rw [hb, Stacked] at htCont
    rcases hentered with ⟨-, hentry⟩ | hentered
    · rw [htCont, hentry, hsCont]
    · exact absurd hentered.lt (by omega)

/-- `(define (f) (f)) (f (f))`. -/
theorem orderly_of_run_loop :
    let f : Expr := .variable (.sym ['f'])
    ∃ prog, compile [.defun (.sym ['f']) [] [.procCall f []], .procCall f [.procCall f []]] =
        some prog ∧ applies prog = [true, false, true] ∧
      ∀ as s, Runs (Steps prog) (.init prog) as s → Orderly prog s (activations prog as) := by
  intro f
  obtain ⟨prog, hprog⟩ : ∃ prog, compile
      [.defun (.sym ['f']) [] [.procCall f []], .procCall f [.procCall f []]] = some prog :=
    ⟨_, rfl⟩
  exact ⟨prog, hprog, (orderly_of_run hprog).1, (orderly_of_run hprog).2.1⟩

end SchemeOs.Compiler
