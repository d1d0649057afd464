import SchemeOs.Compiler.CFile

/-!
# Compiler/CFileRuns — runs of the converter

What a run of each part of `convert` is made of, for the runs that end.  A run leaves the
compile-time environment as it found it (`convSequence_envt`), although the conversion of a
procedure replaces it, and it ends exactly when the conversion without a state gives something
(`isSome_convert`).
-/

namespace SchemeOs.Compiler

variable {fuel : ℕ} {s t u : CompileTimeState} {w w' : List Event} {e : ObjExpr} {d : Datum}
  {i : Code}
  {c con alt body : List Code} {out out' : List Text} {name : Text} {args : List Sym}

/-- The instruction that was converted, and the environment. -/
def Event.instr? : Event → Option (Code × CompileTimeEnvt)
  | .instr i env _ => some (i, env)
  | _ => none

namespace CFile

/-! ## Parts of a run

A run on a list of instructions, taken apart into the runs on each. -/

theorem addConstData_run (proto : Proto) (name : Text) (fields : List Field)
    (s : CompileTimeState) :
    (addConstData proto name fields).run s =
      (some (dataLabel proto.text name s.1.valueLabel,
        { s.1 with valueLabel := s.1.valueLabel + 1 },
        { s.2 with
          srcHead := s.2.srcHead ++ [funCallE "SCHEME_DECL".toList
            [proto.text, dataLabel proto.text name s.1.valueLabel]]
          dataField := s.2.dataField ++
            [.const proto (dataLabel proto.text name s.1.valueLabel) fields] }),
      [.dataLabel (dataLabel proto.text name s.1.valueLabel)]) := rfl

/-- The state when a string and its constant have been added to `s`. -/
def stringState (proto : Proto) (cs : List Char) (s : CompileTimeState) : CompileTimeState :=
  let sl := dataLabel "c_string".toList [] s.1.valueLabel
  let cl := dataLabel proto.text [] (s.1.valueLabel + 1)
  ({ s.1 with valueLabel := s.1.valueLabel + 2 },
   { s.2 with
     srcHead := s.2.srcHead ++ [funCallE "SCHEME_DECL".toList [proto.text, cl]]
     dataField := s.2.dataField ++ [.string sl cs] ++
       [.const proto cl [.name sl, .length cs.length]] })

theorem noted_run {x : ConvM ObjExpr} (h : (noted d x).run s = (some (e, t), w)) :
    ∃ w', x.run s = (some (e, t), w') ∧ w = w' ++ [.const d e] := by
  obtain ⟨e', u, w₁, w₂, hx, hend, rfl⟩ := Traced.run_bind_eq_some.mp h
  cases hend
  exact ⟨w₁, hx, rfl⟩

/-- The environment that the body of a procedure is converted in. -/
def bodyState (args : List Sym) (body : List Code) (s : CompileTimeState) : CompileTimeState :=
  ({ s.1 with envt := .envtFrame s.1.envt (args ++ scanForNewbind body) }, s.2)

/-- The state when the code of a procedure has been added to `u`. -/
def closureState (env : CompileTimeEnvt) (name : Text) (code : List Text) (u : CompileTimeState) :
    CompileTimeState :=
  let fn := funcLabel name u.1.funcLabel
  let tl := dataLabel name [] u.1.valueLabel
  let cl := dataLabel Proto.closure.text (name ++ ['_']) (u.1.valueLabel + 1)
  ({ u.1 with envt := env, funcLabel := 1 + u.1.funcLabel, valueLabel := u.1.valueLabel + 2 },
   { srcHead := u.2.srcHead ++ ["static void ".toList ++ fn ++ "();".toList] ++
      [funCallE "SCHEME_DECL".toList [Proto.closure.text, cl]]
     dataField := u.2.dataField ++ [.template tl fn] ++
      [.const .closure cl [.envt, .name tl]]
     functions := u.2.functions ++ [["static void _c".toList ++ fn ++ "()".toList, ['\x7b']] ++
      (funCallE "BEGIN_PROC".toList [fn] :: code) ++ [['\x7d']]] })

/-- The labels given out for a procedure. -/
def closureLabels (name : Text) (u : CompileTimeState) : List Event :=
  [.funcLabel (funcLabel name u.1.funcLabel), .dataLabel (dataLabel name [] u.1.valueLabel),
    .dataLabel (dataLabel Proto.closure.text (name ++ ['_']) (u.1.valueLabel + 1))]

theorem convSequence_cons_run : (convSequence fuel (i :: c)).run s = (some (out, t), w) ↔
    ∃ code u w₁ out' w₂, (instr2c fuel i).run s = (some (code, u), w₁) ∧
      (convSequence fuel c).run u = (some (out', t), w₂) ∧ out = code ++ out' ∧
      w = w₁ ++ .instr i s.1.envt code :: w₂ := by
  rw [convSequence, Traced.run_bind_eq_some]
  constructor
  · rintro ⟨env, s', w₀, w₃, ⟨⟩, h₁, rfl⟩
    obtain ⟨code, u, w₁, w₄, hi, h₂, rfl⟩ := Traced.run_bind_eq_some.mp h₁
    obtain ⟨_, u', w₅, w₆, ⟨⟩, h₃, rfl⟩ := Traced.run_bind_eq_some.mp h₂
    obtain ⟨out', t', w₂, w₇, hc, hend, rfl⟩ := Traced.run_bind_eq_some.mp h₃
    cases hend
    exact ⟨code, u, w₁, out', w₂, hi, hc, rfl, by simp⟩
  · rintro ⟨code, u, w₁, out', w₂, hi, hc, rfl, rfl⟩
    refine ⟨s.1.envt, s, [], _, rfl, Traced.run_bind_eq_some.mpr
      ⟨code, u, w₁, _, hi,
        Traced.run_bind_eq_some.mpr ⟨(), u, [.instr i s.1.envt code], w₂, rfl, ?_, rfl⟩,
        rfl⟩, rfl⟩
    exact Traced.run_bind_eq_some.mpr ⟨out', t, w₂, [], hc, rfl, (List.append_nil w₂).symm⟩

theorem fetchConst_run (h : (instr2c fuel (.fetchConst d)).run s = (some (out, t), w)) :
    ∃ e, (createConsts fuel d).run s = (some (e, t), w) ∧ out = [fetchLine e] := by
  rw [instr2c] at h
  obtain ⟨e, u, w₁, w₂, he, hend, rfl⟩ := Traced.run_bind_eq_some.mp h
  cases hend
  exact ⟨e, by rwa [List.append_nil], rfl⟩

theorem makeClosure_run
    (h : (instr2c fuel (.makeClosure (.sym name) (.args args) body)).run s = (some (out, t), w)) :
    ∃ code u w₁, (convSequence fuel body).run (bodyState args body s) = (some (code, u), w₁) ∧
      t = closureState s.1.envt name code u ∧ w = w₁ ++ closureLabels name u := by
  rw [instr2c] at h
  obtain ⟨env, s', w₀, w₁, ⟨⟩, h₁, rfl⟩ := Traced.run_bind_eq_some.mp h
  obtain ⟨_, s', w₀, w₁, ⟨⟩, h₂, rfl⟩ := Traced.run_bind_eq_some.mp h₁
  obtain ⟨code, u, w₁, w₂, hbody, hend, rfl⟩ := Traced.run_bind_eq_some.mp h₂
  cases hend
  refine ⟨code, u, w₁, hbody, ?_, ?_⟩
  · simp [closureState]
  · rfl

/-- The two branches of a test. -/
theorem branches_run {cond : Text} (h : (do
      let conCode ← convSequence fuel con
      let altCode ← convSequence fuel alt
      return ifExpr cond conCode altCode : ConvM (List Text)).run s = (some (out, t), w)) :
    ∃ conCode u w₁ altCode w₂, (convSequence fuel con).run s = (some (conCode, u), w₁) ∧
      (convSequence fuel alt).run u = (some (altCode, t), w₂) ∧ w = w₁ ++ w₂ := by
  obtain ⟨conCode, u, w₁, w₃, hcon, h₁, rfl⟩ := Traced.run_bind_eq_some.mp h
  obtain ⟨altCode, t', w₂, w₄, halt, hend, rfl⟩ := Traced.run_bind_eq_some.mp h₁
  cases hend
  exact ⟨conCode, u, w₁, altCode, w₂, hcon, halt, by rw [List.append_nil]⟩

theorem line_run (h : (do
      let env ← getEnvt
      .ofOption (line env i) : ConvM (List Text)).run s =
        (some (out, t), w)) :
    line s.1.envt i = some out ∧ t = s ∧ w = [] := by
  obtain ⟨env, s', w₀, w₁, ⟨⟩, h₁, rfl⟩ := Traced.run_bind_eq_some.mp h
  have hres : (line s.1.envt i).map (fun code => (code, s)) = some (out, t) := congrArg Prod.fst h₁
  obtain ⟨code, hcode, heq⟩ := Option.map_eq_some_iff.mp hres
  cases heq
  exact ⟨hcode, rfl, (congrArg Prod.snd h₁).symm⟩

/-! ## What constants do -/

/-- The types in the labels of constants. -/
def constTypes : List Text :=
  ["c_string".toList, "String".toList, "Symbol".toList, "Pair".toList]

/-- A relation along which `createConsts` runs: it allows to give out the label of a constant, to
write elsewhere than into the environment and the counters, and to note what is returned. -/
structure Quiet (R : CompileTimeState → List Event → CompileTimeState → Prop) : Prop
    extends Traced.Path R where
  label : ∀ dtype ∈ constTypes, Traced.Along R (getDataLabel dtype [])
  write : ∀ {s t}, t.1.envt = s.1.envt → t.1.valueLabel = s.1.valueLabel →
    t.1.funcLabel = s.1.funcLabel → R s [] t
  note : ∀ s d e, R s [.const d e] s

namespace Quiet

variable {R : CompileTimeState → List Event → CompileTimeState → Prop} {α : Type}

theorem of_write (hR : Quiet R) {x : ConvM α} (h : ∀ s, ∃ a t, x.run s = (some (a, t), []) ∧
    t.1.envt = s.1.envt ∧ t.1.valueLabel = s.1.valueLabel ∧ t.1.funcLabel = s.1.funcLabel) :
    Traced.Along R x :=
  .of_run fun s =>
    let ⟨a, t, hx, henvt, hv, hf⟩ := h s
    ⟨a, t, hx, hR.write henvt hv hf⟩

theorem addConstData (hR : Quiet R) {proto : Proto} {name : Text} {fields : List Field}
    (h : Traced.Along R (getDataLabel proto.text name)) :
    Traced.Along R (addConstData proto name fields) :=
  .bind hR.toPath h fun _ =>
    .bind hR.toPath (hR.of_write fun _ => ⟨_, _, rfl, rfl, rfl, rfl⟩) fun _ =>
      .bind hR.toPath (hR.of_write fun _ => ⟨_, _, rfl, rfl, rfl, rfl⟩) fun _ => .of_pure hR.toPath

theorem addString (hR : Quiet R) {proto : Proto} {cs : List Char} (h : proto.text ∈ constTypes) :
    Traced.Along R (addString proto cs) :=
  .bind hR.toPath (hR.label _ (by decide)) fun _ =>
    .bind hR.toPath (hR.of_write fun _ => ⟨_, _, rfl, rfl, rfl, rfl⟩) fun _ =>
      hR.addConstData (hR.label _ h)

/-- **Constants are quiet.** -/
theorem createConsts (hR : Quiet R) (fuel : ℕ) (d : Datum) :
    Traced.Along R (createConsts fuel d) := by
  induction fuel generalizing d with
  | zero => exact .of_failure hR.toPath
  | succ fuel ih =>
    refine .bind hR.toPath ?_ fun e =>
      .bind hR.toPath (.of_emit fun s => hR.note s d e) fun _ => .of_pure hR.toPath
    split
    · exact .of_pure hR.toPath
    · exact .of_pure hR.toPath
    · exact .of_pure hR.toPath
    · exact .of_pure hR.toPath
    · exact .bind hR.toPath (hR.addString (by decide)) fun _ => .of_pure hR.toPath
    · exact .of_failure hR.toPath
    · refine .bind hR.toPath (hR.of_write fun _ => ⟨_, _, rfl, rfl, rfl, rfl⟩) fun ctd => ?_
      split
      · exact .of_pure hR.toPath
      · exact .bind hR.toPath (hR.addString (by decide)) fun _ =>
          .bind hR.toPath (hR.of_write fun _ => ⟨_, _, rfl, rfl, rfl, rfl⟩) fun _ =>
            .of_pure hR.toPath
    · exact .bind hR.toPath (ih _) fun _ => .bind hR.toPath (ih _) fun _ =>
        .bind hR.toPath (hR.addConstData (hR.label _ (by decide))) fun _ => .of_pure hR.toPath
    · exact .of_pure hR.toPath
    · refine .bind hR.toPath ?_ fun d' => ih d'
      cases listToSExp _ with
      | none => exact .of_failure hR.toPath
      | some d' => exact .of_pure hR.toPath

end Quiet

/-! ## The environment

Every instruction leaves the compile-time environment as it found it. -/

/-- No instruction is converted, and the environment stays. -/
def EnvtPath (s : CompileTimeState) (w : List Event) (t : CompileTimeState) : Prop :=
  t.1.envt = s.1.envt ∧ w.filterMap Event.instr? = []

theorem EnvtPath.quiet : Quiet EnvtPath where
  refl _ := ⟨rfl, rfl⟩
  trans h h' := ⟨h'.1.trans h.1, by rw [List.filterMap_append, h.2, h'.2]; rfl⟩
  label dtype _ := by
    refine fun s => ⟨?_, nofun⟩
    rintro a t ⟨⟩
    exact ⟨rfl, rfl⟩
  write h _ _ := ⟨h, rfl⟩
  note _ _ _ := ⟨rfl, rfl⟩

theorem createConsts_envt (h : (createConsts fuel d).run s = (some (e, t), w)) :
    t.1.envt = s.1.envt ∧ w.filterMap Event.instr? = [] :=
  (EnvtPath.quiet.createConsts fuel d).run h

mutual

/-- **The environment is restored** by every run that ends. -/
theorem convSequence_envt : (c : List Code) → {s t : CompileTimeState} → {w : List Event} →
    {out : List Text} → (convSequence fuel c).run s = (some (out, t), w) → t.1.envt = s.1.envt
  | [], _, _, _, _, h => by
    cases h
    rfl
  | i :: c, _, _, _, _, h => by
    obtain ⟨_, u, _, _, _, hi, hc, -, -⟩ := convSequence_cons_run.mp h
    exact (convSequence_envt c hc).trans (instr2c_envt i hi)

theorem instr2c_envt : (i : Code) → {s t : CompileTimeState} → {w : List Event} →
    {out : List Text} → (instr2c fuel i).run s = (some (out, t), w) → t.1.envt = s.1.envt
  | .fetchConst d, _, _, _, _, h => by
    obtain ⟨e, he, -⟩ := fetchConst_run h
    exact (createConsts_envt he).1
  | .ifTrue con alt, _, _, _, _, h => by
    obtain ⟨_, u, _, _, _, hcon, halt, -⟩ := branches_run h
    exact (convSequence_envt alt halt).trans (convSequence_envt con hcon)
  | .ifFalse con alt, _, _, _, _, h => by
    obtain ⟨_, u, _, _, _, hcon, halt, -⟩ := branches_run h
    exact (convSequence_envt alt halt).trans (convSequence_envt con hcon)
  | .makeClosure (.sym name) (.args args) body, _, _, _, _, h => by
    obtain ⟨_, _, _, -, rfl, -⟩ := makeClosure_run h
    rfl
  | .makeClosure .nil formals body, _, _, _, _, h => by rw [(line_run h).2.1]
  | .makeClosure (.sym name) (.args2 names rest) body, _, _, _, _, h => by rw [(line_run h).2.1]
  | .lookupVar x, _, _, _, _, h => by rw [(line_run h).2.1]
  | .label l, _, _, _, _, h => by rw [(line_run h).2.1]
  | .newBind x, _, _, _, _, h => by rw [(line_run h).2.1]
  | .reBind x, _, _, _, _, h => by rw [(line_run h).2.1]
  | .leaveProc, _, _, _, _, h => by rw [(line_run h).2.1]
  | .apply, _, _, _, _, h => by rw [(line_run h).2.1]
  | .callBuiltin f argc, _, _, _, _, h => by rw [(line_run h).2.1]
  | .pushCont l, _, _, _, _, h => by rw [(line_run h).2.1]
  | .push, _, _, _, _, h => by rw [(line_run h).2.1]
  | .moveSp k, _, _, _, _, h => by rw [(line_run h).2.1]
  | .accStack k, _, _, _, _, h => by rw [(line_run h).2.1]
  | .goto l, _, _, _, _, h => by rw [(line_run h).2.1]
  | .blankLn, _, _, _, _, h => by rw [(line_run h).2.1]
  | .nop, _, _, _, _, h => by rw [(line_run h).2.1]

end

/-! ## Which runs end

A run ends when the one without the state does. -/

theorem isSome_noted (d : Datum) (x : ConvM ObjExpr) (s : CompileTimeState) :
    ((noted d x).run s).1.isSome = (x.run s).1.isSome := by
  rw [noted, Traced.isSome_run_bind (b := true) fun _ _ _ => rfl, Bool.and_true]

theorem isSome_createConsts (fuel : ℕ) (d : Datum) (s : CompileTimeState) :
    ((createConsts fuel d).run s).1.isSome = (Compiler.createConsts fuel d).isSome := by
  induction fuel generalizing d s with
  | zero => rfl
  | succ fuel ih =>
    -- a datum that is normalised first
    have hlist : ∀ lst s,
        ((Traced.ofOption (listToSExp lst) >>= createConsts fuel).run s).1.isSome =
        ((listToSExp lst).bind (Compiler.createConsts fuel)).isSome := by
      intro lst s
      cases h : listToSExp lst with
      | none => rfl
      | some d' => exact ih d' s
    refine (isSome_noted d _ s).trans ?_
    cases d with
    | symbol x =>
      cases x with
      | nil => rfl
      | sym name =>
        refine (isSome_noted (.symbol (.sym name)) _ s).symm.trans ?_
        cases hlookup : s.1.symbolTab.lookup (.sym name) with
        | some label => exact congrArg (·.1.isSome) (run_createConsts_symbol_some fuel hlookup)
        | none => exact congrArg (·.1.isSome) (run_createConsts_symbol_none fuel hlookup)
    | sExp ds last =>
      rcases ds with _ | ⟨car, _ | ⟨d₂, ds⟩⟩
      · exact hlist (.sExp [] last) s
      · rw [Traced.isSome_run_bind (b := (Compiler.createConsts fuel last).isSome), ih car s]
        · rw [Compiler.createConsts]
          cases Compiler.createConsts fuel car <;> cases Compiler.createConsts fuel last <;> rfl
        · intro carVar u _
          rw [Traced.isSome_run_bind (b := true) fun _ _ _ => rfl, Bool.and_true, ih last u]
      · exact hlist (.sExp (car :: d₂ :: ds) last) s
    | list ds =>
      cases ds with
      | nil => rfl
      | cons d ds => exact hlist (.list (d :: ds)) s
    | «abbrev» p d => exact hlist (.abbrev p d) s
    | vector ds => exact hlist (.vector ds) s
    | _ => rfl

theorem isSome_line (i : Code) (s : CompileTimeState) : ((do
    let env ← getEnvt
    .ofOption (line env i) : ConvM (List Text)).run s).1.isSome =
      (line s.1.envt i).isSome := by
  change ((line s.1.envt i).map _).isSome = _
  rw [Option.isSome_map]

/-- The two branches of a test, from what is known of each. -/
theorem isSome_branches {cond : Text} {b b' : Bool}
    (hcon : ((convSequence fuel con).run s).1.isSome = b)
    (halt : ∀ u : CompileTimeState, u.1.envt = s.1.envt →
      ((convSequence fuel alt).run u).1.isSome = b') :
    ((do
      let conCode ← convSequence fuel con
      let altCode ← convSequence fuel alt
      return ifExpr cond conCode altCode : ConvM (List Text)).run s).1.isSome = (b && b') := by
  rw [Traced.isSome_run_bind (b := b'), hcon]
  intro conCode u hu
  rw [Traced.isSome_run_bind (b := true) fun _ _ _ => rfl, Bool.and_true]
  exact halt u (convSequence_envt con (w := ((convSequence fuel con).run s).2) (Prod.ext hu rfl))

mutual

theorem isSome_convSequence : (c : List Code) → (s : CompileTimeState) →
    ((convSequence fuel c).run s).1.isSome = (Compiler.convSequence fuel s.1.envt c).isSome
  | [], _ => rfl
  | i :: c, s => by
    rw [Compiler.convSequence, convSequence]
    change ((instr2c fuel i >>= fun code => _).run s).1.isSome = _
    rw [Traced.isSome_run_bind (b := (Compiler.convSequence fuel s.1.envt c).isSome),
      isSome_instr2c i s]
    · cases Compiler.instr2c fuel s.1.envt i <;>
        cases Compiler.convSequence fuel s.1.envt c <;> rfl
    · intro code u hu
      change ((convSequence fuel c >>= fun out => _).run u).1.isSome = _
      rw [Traced.isSome_run_bind (b := true) fun _ _ _ => rfl, Bool.and_true,
        isSome_convSequence c u,
        instr2c_envt i (w := ((instr2c fuel i).run s).2) (Prod.ext hu rfl)]

theorem isSome_instr2c : (i : Code) → (s : CompileTimeState) →
    ((instr2c fuel i).run s).1.isSome = (Compiler.instr2c fuel s.1.envt i).isSome
  | .fetchConst d, s => by
    rw [instr2c, Traced.isSome_run_bind (b := true) fun _ _ _ => rfl, Bool.and_true,
      isSome_createConsts, Compiler.instr2c, Option.isSome_map]
  | .ifTrue con alt, s => by
    rw [instr2c, isSome_branches (isSome_convSequence con s) fun u hu => by
      rw [isSome_convSequence alt u, hu], Compiler.instr2c]
    cases Compiler.convSequence fuel s.1.envt con <;>
      cases Compiler.convSequence fuel s.1.envt alt <;> rfl
  | .ifFalse con alt, s => by
    rw [instr2c, isSome_branches (isSome_convSequence con s) fun u hu => by
      rw [isSome_convSequence alt u, hu], Compiler.instr2c]
    cases Compiler.convSequence fuel s.1.envt con <;>
      cases Compiler.convSequence fuel s.1.envt alt <;> rfl
  | .makeClosure (.sym name) (.args args) body, s => by
    rw [Compiler.instr2c, Option.isSome_map, instr2c]
    change ((convSequence fuel body >>= fun code => _).run (bodyState args body s)).1.isSome = _
    rw [Traced.isSome_run_bind (b := true) fun _ _ _ => rfl, Bool.and_true,
      isSome_convSequence body (bodyState args body s)]
    rfl
  | .makeClosure .nil _ _, _ => rfl
  | .makeClosure (.sym _) (.args2 _ _) _, _ => rfl
  | .lookupVar x, s => by
    rw [Compiler.instr2c, Option.isSome_map]
    exact (isSome_line (.lookupVar x) s).trans Option.isSome_map
  | .newBind x, s => by
    rw [Compiler.instr2c, Option.isSome_map]
    exact (isSome_line (.newBind x) s).trans Option.isSome_map
  | .reBind x, s => by
    rw [Compiler.instr2c, Option.isSome_map]
    exact (isSome_line (.reBind x) s).trans Option.isSome_map
  | .callBuiltin (.sym _) _, _ => rfl
  | .callBuiltin .nil _, _ => rfl
  | .label _, _ => rfl
  | .leaveProc, _ => rfl
  | .apply, _ => rfl
  | .pushCont _, _ => rfl
  | .push, _ => rfl
  | .moveSp _, _ => rfl
  | .accStack _, _ => rfl
  | .goto _, _ => rfl
  | .blankLn, _ => rfl
  | .nop, _ => rfl

end

/-- **The run on the state ends** exactly when the conversion without a state gives something. -/
theorem isSome_convert (fuel : ℕ) (modName : Text) (c : List Code) :
    (convert fuel modName c).1.isSome = (Compiler.convert fuel c).isSome :=
  isSome_convSequence c (initState modName c)

/-! ## A small program -/

/-- The program `(define (name) 1)`. -/
def definition (name : Text) : List Expr := [.defun (.sym name) [] [.selfEval (.number 1)]]

/-- The code of `(define (name) 1)`. -/
def definitionCode (name : Text) : List Code :=
  [.makeClosure (.sym name) (.args []) [.fetchConst (.number 1), .leaveProc], .newBind (.sym name),
    .nop]

theorem compile_definition (name : Text) :
    compile (definition name) = some (definitionCode name) := rfl

theorem convert_definition (name : Text) : ∃ out t w,
    CFile.convert 1 [] (definitionCode name) = (some (out, t), w) := by
  have hsome : (CFile.convert 1 [] (definitionCode name)).1.isSome := by
    rw [isSome_convert]
    simp [Compiler.convert, definitionCode, topEnvt, scanForNewbind, Compiler.convSequence,
      Compiler.instr2c, Compiler.createConsts, lookupvarAtCurrentEnvt]
  generalize CFile.convert 1 [] (definitionCode name) = r at hsome
  obtain ⟨_ | ⟨out, t⟩, w⟩ := r
  · cases hsome
  · exact ⟨out, t, w, rfl⟩

end CFile

end SchemeOs.Compiler
