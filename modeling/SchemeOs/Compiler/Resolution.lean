import SchemeOs.Compiler.CFileRuns
import SchemeOs.Compiler.Definitions

/-!
# Compiler/Resolution — where the converter finds a variable

`visits` lists the instructions of a program with the environments that belong to them: an
instruction of a procedure sees the frames of the enclosing procedures, each with its parameters and
the variables its code binds, above the frame of the module.  A run converts every instruction in
that environment (`convSequence_visits`), and finds a variable in the innermost frame that has it.
-/

namespace SchemeOs.Compiler

open CFile

variable {fuel : ℕ} {env : CompileTimeEnvt} {s t : CompileTimeState} {w : List Event}
  {out : List Text} {x : Sym} {level idx k : ℕ} {binds : List Sym} {i : Code} {c : List Code}

/-! ## Frames -/

/-- The frames of an environment, the innermost one first. -/
def frames : CompileTimeEnvt → List (List Sym)
  | .nullEnvt => []
  | .envtFrame enclosing binds => binds :: frames enclosing

/-- The first place of `x` in a frame. -/
def FirstAt (binds : List Sym) (x : Sym) (idx : ℕ) : Prop :=
  binds[idx]? = some x ∧ ∀ j < idx, binds[j]? ≠ some x

/-- `level` frames are skipped to the innermost one that contains `x`, and its first place there is
`idx`. -/
def FoundAt (env : CompileTimeEnvt) (x : Sym) (level idx : ℕ) : Prop :=
  ∃ binds, (frames env)[level]? = some binds ∧ (∀ skipped ∈ (frames env).take level, x ∉ skipped) ∧
    FirstAt binds x idx

theorem firstAt_of_idxOf? (h : binds.idxOf? x = some idx) : FirstAt binds x idx := by
  obtain ⟨hlt, hx, hbefore⟩ := List.idxOf?_eq_some_iff.mp h
  refine ⟨by rw [List.getElem?_eq_getElem hlt, hx], fun j hj heq => ?_⟩
  rw [List.getElem?_eq_getElem (hj.trans hlt)] at heq
  exact hbefore j hj (Option.some.inj heq)

theorem lookupvar'_found (h : lookupvar' k x env = some (level, idx)) :
    k ≤ level ∧ FoundAt env x (level - k) idx := by
  induction env generalizing k with
  | nullEnvt => cases h
  | envtFrame enclosing binds ih =>
    rw [lookupvar'] at h
    cases hidx : binds.idxOf? x with
    | some j =>
      rw [hidx] at h
      cases h
      rw [Nat.sub_self]
      exact ⟨Nat.le_refl _, binds, rfl, fun _ hb => absurd hb List.not_mem_nil,
        firstAt_of_idxOf? hidx⟩
    | none =>
      rw [hidx] at h
      obtain ⟨hle, binds', hframe, hskip, hfirst⟩ := ih h
      obtain ⟨l, rfl⟩ := Nat.exists_eq_add_of_le hle
      rw [Nat.add_sub_cancel_left] at hframe hskip
      rw [Nat.add_right_comm, Nat.add_assoc, Nat.add_sub_cancel_left]
      refine ⟨by omega, binds', hframe, ?_, hfirst⟩
      rw [frames, List.take_succ_cons, List.forall_mem_cons]
      exact ⟨List.idxOf?_eq_none_iff.mp hidx, hskip⟩

/-- **The innermost frame** that has the variable is the one found. -/
theorem lookupvar_found (h : lookupvar x env = some (level, idx)) : FoundAt env x level idx :=
  (lookupvar'_found h).2

theorem lookupvarAtCurrentEnvt_found (h : lookupvarAtCurrentEnvt x env = some (level, idx)) :
    level = 0 ∧ FirstAt (getBindings env) x idx := by
  cases env with
  | nullEnvt => cases h
  | envtFrame enclosing binds =>
    obtain ⟨j, hj, heq⟩ := Option.map_eq_some_iff.mp h
    cases heq
    exact ⟨rfl, firstAt_of_idxOf? hj⟩

/-! ## Visits

Which instructions a run converts, each with the environment that it is converted in. -/

mutual

/-- The instructions of code, each with the environment that belongs to it, in the order in which
their conversions end. -/
def visits (env : CompileTimeEnvt) : List Code → List (Code × CompileTimeEnvt)
  | [] => []
  | i :: c => visitsIn env i ++ (i, env) :: visits env c

/-- `visits`, for the instructions inside of one. -/
def visitsIn (env : CompileTimeEnvt) : Code → List (Code × CompileTimeEnvt)
  | .makeClosure _ formals body =>
    visits (.envtFrame env (formals.names ++ newBinds body)) body
  | .ifTrue con alt => visits env con ++ visits env alt
  | .ifFalse con alt => visits env con ++ visits env alt
  | _ => []

end

/-- The code noted for a variable is the line of its instruction in the environment noted. -/
def Event.Resolved : Event → Prop
  | .instr (.lookupVar x) env code => line env (.lookupVar x) = some code
  | .instr (.newBind x) env code => line env (.newBind x) = some code
  | _ => True

theorem Event.resolved_of_instr? {e : Event} (h : e.instr? = none) : e.Resolved := by
  cases e with
  | instr i env code => cases h
  | _ => trivial

/-- The instructions in a trace, and whether their variables are resolved. -/
def Visited (w : List Event) (v : List (Code × CompileTimeEnvt)) : Prop :=
  w.filterMap Event.instr? = v ∧ ∀ e ∈ w, e.Resolved

theorem Visited.append {w' : List Event} {v v' : List (Code × CompileTimeEnvt)} (h : Visited w v)
    (h' : Visited w' v') : Visited (w ++ w') (v ++ v') :=
  ⟨by rw [List.filterMap_append, h.1, h'.1],
    fun e he => (List.mem_append.mp he).elim (h.2 e) (h'.2 e)⟩

/-- Events among which there is no instruction. -/
theorem Visited.of_filterMap (h : w.filterMap Event.instr? = []) : Visited w [] :=
  ⟨h, fun e he => Event.resolved_of_instr? (List.filterMap_eq_nil_iff.mp h e he)⟩

theorem visited_line (h : (do
      let env ← getEnvt
      .ofOption (line env i) : ConvM (List Text)).run s =
        (some (out, t), w)) : Visited w [] := by
  obtain ⟨-, -, rfl⟩ := line_run h
  exact .of_filterMap rfl

/-- The code of an instruction that reads or binds a variable is its line. -/
theorem resolved_instr (h : (CFile.instr2c fuel i).run s = (some (out, t), w)) :
    (Event.instr i s.1.envt out).Resolved := by
  cases i with
  | lookupVar x => exact (line_run h).1
  | newBind x => exact (line_run h).1
  | _ => trivial

mutual

/-- **Every instruction is converted in its environment.** -/
theorem convSequence_visits : (c : List Code) →
    (∀ body ∈ bodies c, newBinds body = scanForNewbind body) → {s t : CompileTimeState} →
    {w : List Event} → {out : List Text} → (CFile.convSequence fuel c).run s = (some (out, t), w) →
      Visited w (visits s.1.envt c)
  | [], _, _, _, _, _, h => by
    cases h
    exact .of_filterMap rfl
  | i :: c, hb, s, _, _, _, h => by
    obtain ⟨code, u, w₁, _, w₂, hi, hc, -, rfl⟩ := convSequence_cons_run.mp h
    rw [bodies, List.forall_mem_append] at hb
    have hfirst := instr2c_visits i hb.1 hi
    have hrest := convSequence_visits c hb.2 hc
    rw [instr2c_envt i hi] at hrest
    have hnote : Visited [.instr i s.1.envt code] [(i, s.1.envt)] := by
      refine ⟨rfl, fun e he => ?_⟩
      rw [List.mem_singleton.mp he]
      exact resolved_instr hi
    exact hfirst.append (hnote.append hrest)

theorem instr2c_visits : (i : Code) →
    (∀ body ∈ bodiesIn i, newBinds body = scanForNewbind body) → {s t : CompileTimeState} →
    {w : List Event} → {out : List Text} → (CFile.instr2c fuel i).run s = (some (out, t), w) →
      Visited w (visitsIn s.1.envt i)
  | .fetchConst d, _, _, _, _, _, h => by
    obtain ⟨e, he, -⟩ := fetchConst_run h
    exact .of_filterMap (createConsts_envt he).2
  | .ifTrue con alt, hb, _, _, _, _, h => by
    obtain ⟨_, u, _, _, _, hcon, halt, rfl⟩ := branches_run h
    rw [bodiesIn, List.forall_mem_append] at hb
    have hsecond := convSequence_visits alt hb.2 halt
    rw [convSequence_envt con hcon] at hsecond
    exact (convSequence_visits con hb.1 hcon).append hsecond
  | .ifFalse con alt, hb, _, _, _, _, h => by
    obtain ⟨_, u, _, _, _, hcon, halt, rfl⟩ := branches_run h
    rw [bodiesIn, List.forall_mem_append] at hb
    have hsecond := convSequence_visits alt hb.2 halt
    rw [convSequence_envt con hcon] at hsecond
    exact (convSequence_visits con hb.1 hcon).append hsecond
  | .makeClosure (.sym name) (.args args) body, hb, _, _, _, _, h => by
    obtain ⟨code, u, w₁, hbody, -, rfl⟩ := makeClosure_run h
    rw [bodiesIn, List.forall_mem_cons] at hb
    have hinner := convSequence_visits body hb.2 hbody
    rw [bodyState, ← hb.1] at hinner
    rw [visitsIn, ← List.append_nil (visits _ _)]
    exact hinner.append (.of_filterMap rfl)
  | .makeClosure .nil _ _, _, _, _, _, _, h => nomatch (line_run h).1
  | .makeClosure (.sym _) (.args2 _ _) _, _, _, _, _, _, h => nomatch (line_run h).1
  | .lookupVar _, _, _, _, _, _, h => visited_line h
  | .label _, _, _, _, _, _, h => visited_line h
  | .newBind _, _, _, _, _, _, h => visited_line h
  | .reBind _, _, _, _, _, _, h => visited_line h
  | .leaveProc, _, _, _, _, _, h => visited_line h
  | .apply, _, _, _, _, _, h => visited_line h
  | .callBuiltin _ _, _, _, _, _, _, h => visited_line h
  | .pushCont _, _, _, _, _, _, h => visited_line h
  | .push, _, _, _, _, _, h => visited_line h
  | .moveSp _, _, _, _, _, _, h => visited_line h
  | .accStack _, _, _, _, _, _, h => visited_line h
  | .goto _, _, _, _, _, _, h => visited_line h
  | .blankLn, _, _, _, _, _, h => visited_line h
  | .nop, _, _, _, _, _, h => visited_line h

end

/-- **The converter resolves variables statically**: in a run on the code of a program that the
parser can build, every instruction is converted in its environment; the environment is restored, a
reference is to the innermost frame that has the variable, and a definition finds its variable in
the current frame. -/
theorem convert_resolves {exps : List Expr} {modName : Text} (hg : AllGrammatical true exps)
    (hcompile : compile exps = some c)
    (hconvert : CFile.convert fuel modName c = (some (out, t), w)) :
    t.1.envt = (initState modName c).1.envt ∧
      w.filterMap Event.instr? = visits (.envtFrame .nullEnvt (newBinds c)) c ∧
      (∀ x env code, .instr (.lookupVar x) env code ∈ w → ∃ level idx, FoundAt env x level idx ∧
        code = [funCallE "LOOKUP_VAR".toList [CFile.createRef level, showInt idx]]) ∧
      ∀ x env code, .instr (.newBind x) env code ∈ w → ∃ idx, FirstAt (getBindings env) x idx ∧
        code = [funCallE "BIND_VAR".toList [CFile.createRef 0, showInt idx]] := by
  obtain ⟨htop, hbodies⟩ := newBinds_eq_scanForNewbind hg hcompile
  obtain ⟨hvisits, hresolved⟩ := convSequence_visits c hbodies hconvert
  refine ⟨convSequence_envt c hconvert, ?_, ?_, ?_⟩
  · rw [htop]
    exact hvisits
  · intro x env code he
    obtain ⟨⟨level, idx⟩, ha, rfl⟩ := Option.map_eq_some_iff.mp (hresolved _ he)
    exact ⟨level, idx, lookupvar_found ha, rfl⟩
  · intro x env code he
    obtain ⟨⟨level, idx⟩, ha, rfl⟩ := Option.map_eq_some_iff.mp (hresolved _ he)
    obtain ⟨rfl, hfirst⟩ := lookupvarAtCurrentEnvt_found ha
    exact ⟨idx, hfirst, rfl⟩

/-- `(define (f x) x)`. -/
def identity : List Expr := [.defun (.sym ['f']) [.sym ['x']] [.variable (.sym ['x'])]]

/-- The code of `(define (f x) x)`. -/
def identityCode : List Code :=
  [.makeClosure (.sym ['f']) (.args [.sym ['x']])
      [.accStack 0, .reBind (.sym ['x']), .lookupVar (.sym ['x']), .leaveProc],
    .newBind (.sym ['f']), .nop]

theorem convert_identity : ∃ out t w,
    CFile.convert 1 [] identityCode = (some (out, t), w) := by
  have hsome : (CFile.convert 1 [] identityCode).1.isSome := by
    rw [isSome_convert]
    simp [Compiler.convert, identityCode, topEnvt, scanForNewbind, Compiler.convSequence,
      Compiler.instr2c, lookupvar, lookupvar', lookupvarAtCurrentEnvt]
  generalize CFile.convert 1 [] identityCode = r at hsome
  obtain ⟨_ | ⟨out, t⟩, w⟩ := r
  · cases hsome
  · exact ⟨out, t, w, rfl⟩

/-- The parameter of `f` is in the frame of `f`, and `f` in that of the program. -/
theorem convert_resolves_definition : ∃ out t w,
    CFile.convert 1 [] identityCode = (some (out, t), w) ∧
      t.1.envt = (initState [] identityCode).1.envt ∧
      w.filterMap Event.instr? = visits (.envtFrame .nullEnvt [.sym ['f']]) identityCode ∧
      (∀ x env code, .instr (.lookupVar x) env code ∈ w → ∃ level idx, FoundAt env x level idx ∧
        code = [funCallE "LOOKUP_VAR".toList [CFile.createRef level, showInt idx]]) ∧
      ∀ x env code, .instr (.newBind x) env code ∈ w → ∃ idx, FirstAt (getBindings env) x idx ∧
        code = [funCallE "BIND_VAR".toList [CFile.createRef 0, showInt idx]] := by
  obtain ⟨out, t, w, hconvert⟩ := convert_identity
  have hg : AllGrammatical true identity := ⟨⟨rfl, trivial, trivial⟩, trivial⟩
  have hcompile : compile identity = some identityCode := rfl
  exact ⟨out, t, w, hconvert, convert_resolves hg hcompile hconvert⟩

end SchemeOs.Compiler
