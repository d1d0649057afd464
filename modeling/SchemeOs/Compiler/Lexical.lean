import Mathlib.Data.List.Forall2
import SchemeOs.Compiler.Activations

/-!
# Compiler/Lexical — which slot a variable is

Lexical scoping, as a machine: it runs the same code, and gives each activation of a procedure a
frame of its own, enclosed by the one in force when the closure was made.  `apply_procedure` makes
no frame, so a procedure's variables are looked for in the frame that it was made in.  Only the
program's own variables, used by the program itself, are where they should be.
-/

namespace SchemeOs.Compiler

variable {prog : List Code} {s t s' : State} {m m' m₁ : Svm} {v v' w : Val}

/-! ## Lexical scoping

A machine that differs from the modelled one in calls alone: a new frame for the formals. -/

/-- A machine with a frame for each activation: a state, and the number of frames taken. -/
structure Lexical where
  state : State
  frames : ℕ

/-- A step, in which a closure that is applied takes a new frame. -/
def lexicalStep (prog : List Code) (s : Lexical) : Option Lexical :=
  match s.state.code, s.state.svm.value with
  | .apply :: _, .closure t envt =>
    some ⟨⟨t.env, t.code, { s.state.svm with
      template := some t
      envt := s.frames
      enclosing := Function.update s.state.svm.enclosing s.frames envt }⟩, s.frames + 1⟩
  | _, _ => (step prog s.state).map fun t => ⟨t, s.frames⟩

/-- The start: `NULL` and `global_environment` are taken. -/
def Lexical.init (prog : List Code) : Lexical := ⟨.init prog, 2⟩

/-- A step, labelled with the state it is made in. -/
def LexicalSteps (prog : List Code) (s : Lexical) (a : Lexical) (t : Lexical) : Prop :=
  a = s ∧ lexicalStep prog s = some t

/-- The compile-time address of the variable that the next instruction reads or binds. -/
def State.address (s : State) : Option (ℕ × ℕ) :=
  match s.code with
  | .lookupVar x :: _ => lookupvar x s.env
  | .newBind x :: _ => lookupvarAtCurrentEnvt x s.env
  | .reBind x :: _ => lookupvarAtCurrentEnvt x s.env
  | _ => none

/-- The frame and the slot that it reaches from `reg_envt`. -/
def State.slot (s : State) : Option (ℕ × ℕ) :=
  s.address.map fun a => (createRef s.svm.enclosing a.1 s.svm.envt, a.2)

/-- The next instruction reads or binds a variable only if it is the program's own. -/
def ProgramAccess (prog : List Code) (s : State) : Prop :=
  ∀ a, s.address = some a → s.env = topEnvt prog

/-! ## Both machines

They go in step while only the program itself uses variables: in a body they differ in the frame. -/

/-- The code is that of a procedure. -/
def InBody (env : CompileTimeEnvt) : Prop :=
  ∃ enclosing binds binds', env = .envtFrame (.envtFrame enclosing binds) binds'

/-- The environment `envt` is right for the position of the lexical machine, if that is in the
program itself. -/
def Placed (prog : List Code) (env : CompileTimeEnvt) (envt : ℕ) : Prop :=
  (env = topEnvt prog ∧ envt = globalEnvironment) ∨ InBody env

theorem Placed.body {env : CompileTimeEnvt} {envt : ℕ} (h : Placed prog env envt)
    (formals : Formals) (body : List Code) : InBody (bodyEnvt env formals body) := by
  rcases h with ⟨rfl, -⟩ | ⟨enclosing, binds, binds', rfl⟩
  · exact ⟨_, _, _, rfl⟩
  · exact ⟨_, _, _, rfl⟩

/-- The same value, but for the environment of a closure. -/
def Same : Val → Val → Prop
  | .const d, v' => v' = .const d
  | .closure t envt, v' => envt = globalEnvironment ∧ InBody t.env ∧ ∃ envt', v' = .closure t envt'
  | .junk, v' => v' = .junk

/-- The same continuation, but for the environment. -/
structure SameCont (prog : List Code) (c c' : Cont) : Prop where
  pc : c'.pc = c.pc
  envt : c.envt = globalEnvironment
  main : c.pc = none → c'.envt = globalEnvironment
  placed : ∀ l p, c.pc = some l → findLabel l (topEnvt prog) [] prog = some p →
    Placed prog p.1 c'.envt

/-- The same registers and global variables, but for environments: the code never leaves the
global one. -/
structure Alike (prog : List Code) (m m' : Svm) : Prop where
  envt : m.envt = globalEnvironment
  value : Same m.value m'.value
  stack : ∀ i, Same (m.stack i) (m'.stack i)
  stackTop : m'.stackTop = m.stackTop
  stackBase : m'.stackBase = m.stackBase
  bindings : ∀ i, Same (m.bindings globalEnvironment i) (m'.bindings globalEnvironment i)
  cont : List.Forall₂ (SameCont prog) m.cont m'.cont

/-- The machine and the lexical one are at the same position. -/
structure Mirrors (prog : List Code) (s s' : State) : Prop where
  env : s'.env = s.env
  code : s'.code = s.code
  placed : Placed prog s.env s'.svm.envt
  alike : Alike prog s.svm s'.svm

/-! ## Values -/

theorem Same.const_eq {d : Datum} (h : Same (.const d) v') : v' = .const d := h

theorem Same.falsep_eq (h : Same v v') : falsep v' = falsep v := by
  cases v with
  | const d => rw [h.const_eq]
  | junk =>
    rw [Same] at h
    rw [h]
  | closure t envt =>
    obtain ⟨-, -, envt', rfl⟩ := h
    rfl

theorem Same.refl_of_ne_closure (h : ∀ t envt, v ≠ .closure t envt) : Same v v := by
  cases v with
  | const d => rfl
  | junk => rfl
  | closure t envt => exact absurd rfl (h t envt)

/-- Values that are the same have the same parts. -/
theorem schemeCar_same (h : Same v v') : Same (schemeCar v) (schemeCar v') := by
  cases v with
  | const d =>
    rw [h.const_eq]
    refine .refl_of_ne_closure fun t envt => ?_
    unfold schemeCar
    split <;> exact nofun
  | junk =>
    obtain rfl : v' = .junk := h
    rfl
  | closure t envt =>
    obtain ⟨-, -, envt', rfl⟩ := h
    rfl

theorem schemeCdr_same (h : Same v v') : Same (schemeCdr v) (schemeCdr v') := by
  cases v with
  | const d =>
    rw [h.const_eq]
    refine .refl_of_ne_closure fun t envt => ?_
    unfold schemeCdr
    split <;> exact nofun
  | junk =>
    obtain rfl : v' = .junk := h
    rfl
  | closure t envt =>
    obtain ⟨-, -, envt', rfl⟩ := h
    rfl

theorem sumStack_same {stack stack' : ℤ → Val} (h : ∀ i, Same (stack i) (stack' i)) {top : ℤ}
    {argc : ℕ} : sumStack stack' top argc = sumStack stack top argc := by
  induction argc with
  | zero => rfl
  | succ argc ih =>
    have hsame := h (top + argc)
    rw [sumStack, sumStack, ih]
    cases hv : stack (top + argc) with
    | const d =>
      rw [hv] at hsame
      rw [hsame.const_eq]
    | junk =>
      rw [hv] at hsame
      have hjunk : stack' (top + argc) = .junk := hsame
      rw [hjunk]
    | closure t envt =>
      rw [hv] at hsame
      obtain ⟨-, -, envt', heq⟩ := hsame
      rw [heq]

theorem sumVal_same (o : Option ℤ) : Same (sumVal o) (sumVal o) := by
  cases o <;> rfl

/-- A constant is the same on both sides. -/
theorem Same.ofConst (d : Datum) : Same (.ofConst d) (.ofConst d) := by
  rw [Val.ofConst]
  cases emitted d <;> rfl

namespace Alike

theorem setValue (h : Alike prog m m') (hv : Same v v') :
    Alike prog { m with value := v } { m' with value := v' } :=
  ⟨h.envt, hv, h.stack, h.stackTop, h.stackBase, h.bindings, h.cont⟩

/-- Updates of corresponding slots. -/
theorem same_update {α : Type} [DecidableEq α] {f f' : α → Val} (h : ∀ i, Same (f i) (f' i))
    (hv : Same v v') (i j : α) : Same (Function.update f i v j) (Function.update f' i v' j) := by
  by_cases hj : j = i
  · rw [hj, Function.update_self, Function.update_self]
    exact hv
  · rw [Function.update_of_ne hj, Function.update_of_ne hj]
    exact h j

theorem push (h : Alike prog m m') : Alike prog m.push m'.push where
  envt := h.envt
  value := h.value
  stack i := by
    rw [Svm.push, Svm.push, h.stackTop]
    exact same_update h.stack h.value _ i
  stackTop := by rw [Svm.push, Svm.push, h.stackTop]
  stackBase := h.stackBase
  bindings := h.bindings
  cont := h.cont

theorem bindVar (h : Alike prog m m') (henvt : m'.envt = globalEnvironment) (offset : ℕ) :
    Alike prog (m.bindVar offset) (m'.bindVar offset) where
  envt := h.envt
  value := h.value
  stack := h.stack
  stackTop := h.stackTop
  stackBase := h.stackBase
  bindings i := by
    rw [Svm.bindVar, Svm.bindVar, h.envt, henvt]
    dsimp only
    rw [Function.update_self, Function.update_self]
    exact same_update h.bindings h.value offset i
  cont := h.cont

theorem callBuiltin (h : Alike prog m m') {f : List Char} {argc : ℕ}
    (hm : Compiler.callBuiltin f argc m = some m₁) :
    ∃ m₁', Compiler.callBuiltin f argc m' = some m₁' ∧ Alike prog m₁ m₁' ∧
      m₁'.envt = m'.envt := by
  have htop : Same (m.stack m.stackTop) (m'.stack m'.stackTop) := by
    rw [h.stackTop]
    exact h.stack _
  unfold Compiler.callBuiltin at hm ⊢
  split_ifs at hm ⊢ with h₁ h₂ h₃ h₄ h₅
  · cases hm
    exact ⟨_, rfl, h.setValue (schemeCar_same htop), rfl⟩
  · cases hm
    exact ⟨_, rfl, h.setValue (schemeCdr_same htop), rfl⟩
  · cases hm
    exact ⟨_, rfl, h.setValue rfl, rfl⟩
  · cases hm
    rw [h.stackTop, sumStack_same h.stack]
    have hsum := sumVal_same (sumStack m.stack m.stackTop argc)
    exact ⟨_, rfl, ⟨h.envt, hsum, same_update h.stack hsum m.stackTop, rfl, h.stackBase,
      h.bindings, h.cont⟩, rfl⟩
  · cases hm
    exact ⟨_, rfl, h, rfl⟩

end Alike

/-! ## Steps -/

theorem lexicalStep_of_ne_apply {s : Lexical} (h : ∀ k, s.state.code ≠ .apply :: k) :
    lexicalStep prog s = (step prog s.state).map fun t => ⟨t, s.frames⟩ := by
  unfold lexicalStep
  split
  · next hcode _ => exact absurd hcode (h _)
  · rfl

/-- At the top level a variable is in the frame itself. -/
theorem level_topEnvt {x : Sym} {a : ℕ × ℕ} (h : lookupvar x (topEnvt prog) = some a) :
    a.1 = 0 := by
  rw [lookupvar, topEnvt, lookupvar'] at h
  split at h
  · cases h
    rfl
  · rw [lookupvar'] at h
    cases h

/-- An instruction that begins and makes no call, and uses no variable of a procedure. -/
theorem mirrors_plain {env : CompileTimeEnvt} {i : Code} {k : List Code} (hi : i.plain = true)
    (hplaced : Placed prog env m'.envt) (halike : Alike prog m m')
    (haccess : ProgramAccess prog ⟨env, i :: k, m⟩) (hstep : step prog ⟨env, i :: k, m⟩ = some t) :
    ∃ t', step prog ⟨env, i :: k, m'⟩ = some t' ∧ Mirrors prog t t' := by
  -- a variable of the program is in the frame that both machines are in
  have hmain : env = topEnvt prog → m'.envt = globalEnvironment := by
    intro henv
    rcases hplaced with ⟨-, h⟩ | ⟨enclosing, binds, binds', h⟩
    · exact h
    · rw [henv, topEnvt] at h
      cases h
  cases i, hi using Code.plain_cases with
  | fetchConst d =>
    cases hstep
    have hsame := Same.ofConst d
    exact ⟨_, rfl, rfl, rfl, hplaced, halike.setValue hsame⟩
  | lookupVar x =>
    obtain ⟨a, ha, rfl⟩ := Option.map_eq_some_iff.mp hstep
    have henv : env = topEnvt prog := haccess a ha
    have hlevel : a.1 = 0 := level_topEnvt (henv ▸ ha)
    refine ⟨⟨env, k, { m' with value := m'.bindings (createRef m'.enclosing a.1 m'.envt) a.2 }⟩,
      ?_, rfl, rfl, hplaced, halike.setValue ?_⟩
    · have ha' : lookupvar x env = some a := ha
      simp only [step, ha', Option.map_some]
    · dsimp only
      rw [hlevel, createRef, createRef, halike.envt, hmain henv]
      exact halike.bindings a.2
  | label l =>
    cases hstep
    exact ⟨_, rfl, rfl, rfl, hplaced, halike⟩
  | newBind x =>
    obtain ⟨a, ha, rfl⟩ := Option.map_eq_some_iff.mp hstep
    refine ⟨⟨env, k, m'.bindVar a.2⟩, ?_, rfl, rfl, hplaced,
      halike.bindVar (hmain (haccess a ha)) a.2⟩
    have ha' : lookupvarAtCurrentEnvt x env = some a := ha
    simp only [step, ha', Option.map_some]
  | reBind x =>
    obtain ⟨a, ha, rfl⟩ := Option.map_eq_some_iff.mp hstep
    refine ⟨⟨env, k, m'.bindVar a.2⟩, ?_, rfl, rfl, hplaced,
      halike.bindVar (hmain (haccess a ha)) a.2⟩
    have ha' : lookupvarAtCurrentEnvt x env = some a := ha
    simp only [step, ha', Option.map_some]
  | callBuiltin f argc =>
    cases f with
    | nil => cases hstep
    | sym f =>
      obtain ⟨m₁, hm₁, rfl⟩ := Option.map_eq_some_iff.mp hstep
      obtain ⟨m₁', hm₁', halike', henvt⟩ := halike.callBuiltin hm₁
      refine ⟨⟨env, k, m₁'⟩, ?_, rfl, rfl, ?_, halike'⟩
      · simp only [step, hm₁', Option.map_some]
      · dsimp only
        rw [henvt]
        exact hplaced
  | accStack n =>
    simp only [step] at hstep
    split_ifs at hstep with hbase
    cases hstep
    refine ⟨⟨env, k, { m' with value := m'.stack (m'.stackTop + n) }⟩, ?_, rfl, rfl, hplaced,
      halike.setValue ?_⟩
    · simp only [step, halike.stackTop, halike.stackBase, if_neg hbase]
    · rw [halike.stackTop]
      exact halike.stack _
  | blankLn =>
    cases hstep
    exact ⟨_, rfl, rfl, rfl, hplaced, halike⟩
  | nop =>
    cases hstep
    exact ⟨_, rfl, rfl, rfl, hplaced, halike⟩

/-- The lexical machine enters a new frame, and the machine the one that the closure was made in. -/
theorem mirrors_apply {env : CompileTimeEnvt} {k : List Code} (halike : Alike prog m m')
    (hstep : step prog ⟨env, .apply :: k, m⟩ = some t) (frames : ℕ) :
    ∃ t', lexicalStep prog ⟨⟨env, .apply :: k, m'⟩, frames⟩ = some t' ∧
      Mirrors prog t t'.state := by
  obtain ⟨tpl, envt, hv, rfl⟩ := step_apply hstep
  have hsame := halike.value
  rw [hv] at hsame
  obtain ⟨henvt, hbody, envt', hv'⟩ := hsame
  refine ⟨⟨⟨tpl.env, tpl.code, { m' with
    template := some tpl
    envt := frames
    enclosing := Function.update m'.enclosing frames envt' }⟩, frames + 1⟩, ?_, ?_⟩
  · simp only [lexicalStep, hv']
  · exact ⟨rfl, rfl, .inr hbody, henvt, halike.value, halike.stack, halike.stackTop,
      halike.stackBase, halike.bindings, halike.cont⟩

/-- Both return to the same place. -/
theorem mirrors_leaveProc {env : CompileTimeEnvt} {k : List Code}
    (hplaced : Placed prog env m'.envt) (halike : Alike prog m m')
    (hstep : step prog ⟨env, .leaveProc :: k, m⟩ = some t) :
    ∃ t', step prog ⟨env, .leaveProc :: k, m'⟩ = some t' ∧ Mirrors prog t t' := by
  have hcont := halike.cont
  simp only [step] at hstep ⊢
  cases hm : m.cont with
  | nil =>
    rw [hm] at hstep
    cases hstep
  | cons c rest =>
    rw [hm] at hcont hstep
    obtain ⟨c', rest', hc, hrest, hm'⟩ := List.forall₂_cons_left_iff.mp hcont
    rw [hm']
    dsimp only at hstep ⊢
    rw [hc.pc]
    cases hpc : c.pc with
    | none =>
      rw [hpc] at hstep
      cases hstep
      refine ⟨⟨env, [], { m' with envt := c'.envt, template := c'.template, cont := rest' }⟩, rfl,
        rfl, rfl, ?_, hc.envt, halike.value, halike.stack, halike.stackTop, halike.stackBase,
        halike.bindings, hrest⟩
      exact hplaced.imp_left fun h => ⟨h.1, hc.main hpc⟩
    | some l =>
      rw [hpc] at hstep
      obtain ⟨p, hp, rfl⟩ := Option.map_eq_some_iff.mp hstep
      dsimp only
      rw [hp]
      exact ⟨⟨p.1, p.2, { m' with envt := c'.envt, template := c'.template, cont := rest' }⟩, rfl,
        rfl, rfl, hc.placed l p hpc hp, hc.envt, halike.value, halike.stack, halike.stackTop,
        halike.stackBase, halike.bindings, hrest⟩

/-- **A step** of the machine that uses no variable of a procedure is one of the lexical machine. -/
theorem Mirrors.step (h : Mirrors prog s s') {part : Part} {n : ℕ} {ls : List (ℕ × ℕ)}
    (hcode : Balanced prog part s.env n ls s.code) (haccess : ProgramAccess prog s)
    (hstep : step prog s = some t) (frames : ℕ) :
    ∃ t', lexicalStep prog ⟨s', frames⟩ = some t' ∧ Mirrors prog t t'.state := by
  obtain ⟨env, code, m⟩ := s
  obtain ⟨env', code', m'⟩ := s'
  obtain ⟨henv, hcode', hplaced, halike⟩ := h
  dsimp only at henv hcode' hplaced halike hcode
  subst henv hcode'
  have hother : ∀ {t'}, (∀ k, code' ≠ .apply :: k) →
      Compiler.step prog ⟨env', code', m'⟩ = some t' → Mirrors prog t t' →
        ∃ t', lexicalStep prog ⟨⟨env', code', m'⟩, frames⟩ = some t' ∧ Mirrors prog t t'.state := by
    intro t' hne ht' hmirrors
    refine ⟨⟨t', frames⟩, ?_, hmirrors⟩
    rw [lexicalStep_of_ne_apply hne, ht']
    rfl
  cases hcode with
  | nil _ => cases hstep
  | @plain _ _ _ _ i k hi hk =>
    obtain ⟨t', ht', hmirrors⟩ := mirrors_plain hi hplaced halike haccess hstep
    refine hother (fun k' hk' => ?_) ht' hmirrors
    obtain ⟨rfl, -⟩ := List.cons_eq_cons.mp hk'
    cases hi
  | push hk =>
    cases hstep
    exact hother (by simp) rfl ⟨rfl, rfl, hplaced, halike.push⟩
  | moveSp argc hk =>
    cases hstep
    refine hother (by simp) rfl ⟨rfl, rfl, hplaced, halike.envt, halike.value, halike.stack, ?_,
      halike.stackBase, halike.bindings, halike.cont⟩
    dsimp only
    rw [halike.stackTop]
  | @makeClosure _ _ _ _ name formals body k hbody hk =>
    cases hstep
    refine hother (by simp) rfl ⟨rfl, rfl, hplaced, halike.setValue ?_⟩
    exact ⟨halike.envt, hplaced.body formals body, _, rfl⟩
  | ifTrue hcon halt =>
    cases hstep
    refine hother (by simp) rfl ⟨rfl, ?_, hplaced, halike⟩
    dsimp only
    rw [halike.value.falsep_eq]
  | ifFalse hcon halt =>
    cases hstep
    refine hother (by simp) rfl ⟨rfl, ?_, hplaced, halike⟩
    dsimp only
    rw [halike.value.falsep_eq]
  | goto hfind hk =>
    simp only [Compiler.step, hfind, Option.map_some, Option.some.injEq] at hstep
    subst hstep
    refine @hother ⟨env', _, m'⟩ (by simp) ?_ ⟨rfl, rfl, hplaced, halike⟩
    simp only [Compiler.step, hfind, Option.map_some]
  | @pushCont _ _ _ _ l k k' hfind hk =>
    cases hstep
    refine hother (by simp) rfl ⟨rfl, rfl, hplaced, halike.envt, halike.value, halike.stack,
      halike.stackTop, halike.stackBase, halike.bindings, ?_⟩
    refine .cons ⟨rfl, halike.envt, by simp, fun l' p hl' hp => ?_⟩ halike.cont
    cases hl'
    rw [hfind] at hp
    cases hp
    exact hplaced
  | call _ _ => exact mirrors_apply halike hstep frames
  | tailCall _ _ => exact mirrors_apply halike hstep frames
  | leaveProc =>
    obtain ⟨t', ht', hmirrors⟩ := mirrors_leaveProc hplaced halike hstep
    exact hother (by simp) ht' hmirrors

/-! ## Runs -/

theorem mirrors_init (prog : List Code) : Mirrors prog (.init prog) (.init prog) where
  env := rfl
  code := rfl
  placed := .inl ⟨rfl, rfl⟩
  alike :=
    { envt := rfl
      value := rfl
      stack := fun _ => rfl
      stackTop := rfl
      stackBase := rfl
      bindings := fun _ => rfl
      cont := .cons ⟨rfl, rfl, fun _ => rfl, nofun⟩ .nil }

/-- A run of the machine that uses no variable of a procedure is one of the lexical machine. -/
theorem Mirrors.run {as : List State} {g : List Activation} {l : Lexical}
    (h : Mirrors prog s l.state) (hagrees : Agrees prog s g)
    (hrun : Runs (Guarded (fun s _ => ProgramAccess prog s) (Steps prog)) s as t) :
    ∃ as' l', Runs (LexicalSteps prog) l as' l' ∧ as'.length = as.length ∧
      Mirrors prog t l'.state := by
  induction hrun generalizing g l with
  | nil s => exact ⟨[], l, .nil l, rfl, h⟩
  | @cons s t u a as hstep _ ih =>
    obtain ⟨haccess, rfl, hstep⟩ := hstep
    cases g with
    | nil =>
      rw [Agrees] at hagrees
      rw [Compiler.step, hagrees] at hstep
      cases hstep
    | cons act g =>
      obtain ⟨part, n, ls, hcode, -⟩ := hagrees.1
      obtain ⟨l₁, hl₁, hmirrors⟩ := h.step hcode haccess hstep l.frames
      obtain ⟨as', l', hrun', hlen, hmirrors'⟩ := ih hmirrors (hagrees.step hstep)
      exact ⟨l :: as', l', .cons ⟨rfl, hl₁⟩ hrun', by rw [List.length_cons, List.length_cons, hlen],
        hmirrors'⟩

/-- A variable of the program is in the same slot for both machines. -/
theorem Mirrors.slot_eq (h : Mirrors prog s s') (haccess : ProgramAccess prog s) :
    s.slot = s'.slot := by
  have haddress : s'.address = s.address := by
    unfold State.address
    rw [h.code, h.env]
  rw [State.slot, State.slot, haddress]
  cases ha : s.address with
  | none => rfl
  | some a =>
    have henv := haccess a ha
    have hlevel : a.1 = 0 := by
      unfold State.address at ha
      rw [henv] at ha
      split at ha
      · exact level_topEnvt ha
      · obtain ⟨idx, -, rfl⟩ := Option.map_eq_some_iff.mp ha
        rfl
      · obtain ⟨idx, -, rfl⟩ := Option.map_eq_some_iff.mp ha
        rfl
      · cases ha
    have henvt : s'.svm.envt = globalEnvironment := by
      rcases h.placed with ⟨-, h⟩ | ⟨enclosing, binds, binds', h⟩
      · exact h
      · rw [henv, topEnvt] at h
        cases h
    rw [Option.map_some, Option.map_some, hlevel, createRef, createRef, h.alike.envt, henvt]

/-- **A run of a compiled program in which only the program itself uses variables** reaches the
slots that lexical scoping assigns. -/
theorem slot_of_run {exps : List Expr} (h : compile exps = some prog) {as : List State}
    (hrun : Runs (Guarded (fun s _ => ProgramAccess prog s) (Steps prog)) (.init prog) as s)
    (haccess : ProgramAccess prog s) :
    ∃ as' l, Runs (LexicalSteps prog) (.init prog) as' l ∧ as'.length = as.length ∧
      l.state.code = s.code ∧ s.slot = l.state.slot := by
  obtain ⟨as', l, hrun', hlen, hmirrors⟩ :=
    Mirrors.run (l := .init prog) (mirrors_init prog) (agrees_init h) hrun
  exact ⟨as', l, hrun', hlen, hmirrors.code, hmirrors.slot_eq haccess⟩

/-- `(define (f) 1) (f) (define y 3) y`: the reference to `y`, after a call of `f`. -/
theorem slot_of_run_define :
    let prog : List Code := [.makeClosure (.sym ['f']) (.args []) [.fetchConst (.number 1),
      .leaveProc], .newBind (.sym ['f']), .nop, .pushCont 0, .lookupVar (.sym ['f']),
      .apply, .label 0, .blankLn, .fetchConst (.number 3), .newBind (.sym ['y']), .nop,
      .lookupVar (.sym ['y'])]
    ∃ as' l, Runs (LexicalSteps prog) (.init prog) as' l ∧ as'.length = 12 ∧
      l.state.code = [.lookupVar (.sym ['y'])] ∧
      some (globalEnvironment, 1) = l.state.slot := by
  intro prog
  have hcompile : compile [.defun (.sym ['f']) [] [.selfEval (.number 1)],
      .procCall (.variable (.sym ['f'])) [], .defvar (.sym ['y']) (.selfEval (.number 3)),
      .variable (.sym ['y'])] = some prog := rfl
  have htop : ∀ {code m}, ProgramAccess prog ⟨topEnvt prog, code, m⟩ := fun _ _ => rfl
  have hbody : ∀ {env m code}, ProgramAccess prog ⟨env, .fetchConst (.number 1) :: code, m⟩ :=
    fun a ha => by cases ha
  have hleave : ∀ {env m}, ProgramAccess prog ⟨env, [.leaveProc], m⟩ := fun a ha => by cases ha
  obtain ⟨s, as, hrun, hlen, hcode, hslot, haccess⟩ : ∃ s as,
      Runs (Guarded (fun s _ => ProgramAccess prog s) (Steps prog)) (.init prog) as s ∧
        as.length = 12 ∧ s.code = [.lookupVar (.sym ['y'])] ∧
        s.slot = some (globalEnvironment, 1) ∧ ProgramAccess prog s :=
    ⟨_, _, .cons ⟨htop, rfl, rfl⟩ (.cons ⟨htop, rfl, rfl⟩ (.cons ⟨htop, rfl, rfl⟩
      (.cons ⟨htop, rfl, rfl⟩ (.cons ⟨htop, rfl, rfl⟩ (.cons ⟨htop, rfl, rfl⟩
      (.cons ⟨hbody, rfl, rfl⟩ (.cons ⟨hleave, rfl, rfl⟩
      (.cons ⟨htop, rfl, rfl⟩ (.cons ⟨htop, rfl, rfl⟩ (.cons ⟨htop, rfl, rfl⟩
      (.single ⟨htop, rfl, rfl⟩))))))))))), rfl, rfl, rfl, htop⟩
  obtain ⟨as', l, hrun', hlen', hcode', hslot'⟩ := slot_of_run hcompile hrun haccess
  exact ⟨as', l, hrun', hlen'.trans hlen, hcode'.trans hcode, hslot.symm.trans hslot'⟩

/-- `(define (f x) x) (f 1)` binds its parameter in the slot of `f`. -/
theorem slot_ne_of_parameter : ¬ ∀ (exps : List Expr) (prog : List Code) (fuel : ℕ),
    compile exps = some prog → (convert fuel prog).isSome →
      ∃ frame : ℕ → ℕ, Function.Injective frame ∧ ∀ as s as' l,
        Runs (Steps prog) (.init prog) as s → Runs (LexicalSteps prog) (.init prog) as' l →
        as'.length = as.length → l.state.code = s.code →
          s.slot = l.state.slot.map fun a => (frame a.1, a.2) := by
  intro hall
  let f : Sym := .sym ['f']
  let x : Sym := .sym ['x']
  obtain ⟨frame, hinj, hslot⟩ := hall [.defun f [x] [.variable x],
    .procCall (.variable f) [.selfEval (.number 1)]]
    [.makeClosure f (.args [x]) [.accStack 0, .reBind x, .lookupVar x, .leaveProc], .newBind f,
      .nop, .fetchConst (.number 1), .push, .blankLn, .lookupVar f, .apply, .blankLn] 1 rfl rfl
  have hdefine : some (1, 0) = some (frame 1, 0) :=
    hslot _ _ _ _ (.single ⟨rfl, rfl⟩) (.single ⟨rfl, rfl⟩) rfl rfl
  have hparameter : some (1, 0) = some (frame 2, 0) :=
    hslot _ _ _ _
      (.cons ⟨rfl, rfl⟩ (.cons ⟨rfl, rfl⟩ (.cons ⟨rfl, rfl⟩ (.cons ⟨rfl, rfl⟩ (.cons ⟨rfl, rfl⟩
        (.cons ⟨rfl, rfl⟩ (.cons ⟨rfl, rfl⟩ (.cons ⟨rfl, rfl⟩ (.single ⟨rfl, rfl⟩)))))))))
      (.cons ⟨rfl, rfl⟩ (.cons ⟨rfl, rfl⟩ (.cons ⟨rfl, rfl⟩ (.cons ⟨rfl, rfl⟩ (.cons ⟨rfl, rfl⟩
        (.cons ⟨rfl, rfl⟩ (.cons ⟨rfl, rfl⟩ (.cons ⟨rfl, rfl⟩ (.single ⟨rfl, rfl⟩))))))))) rfl rfl
  have heq : frame 1 = frame 2 := by
    have := hdefine.symm.trans hparameter
    exact (Prod.mk.inj (Option.some.inj this)).1
  exact absurd (hinj heq) (by decide)

end SchemeOs.Compiler
