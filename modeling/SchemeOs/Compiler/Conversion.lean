import Mathlib.Order.Basic
import Mathlib.Tactic.SplitIfs
import SchemeOs.Compiler.Convert

/-!
# Compiler/Conversion — which programs become C

Compiled code is converted when its constants can be declared, its closures are named procedures
without a rest parameter, and its variables are found.  The frame of a procedure holds its
parameters and the variables that a `NewBind` of its code binds; a `NewBind` inside the block of a
test is not seen.  `Accepted` says the same of expressions.
-/

namespace SchemeOs.Compiler

variable {fuel n m : ℕ} {env : CompileTimeEnvt} {d d' last : Datum} {ds : List Datum}

/-! ## Constants -/

mutual

/-- The data that can be declared: no vectors, no abbreviations, something before every dot. -/
def Declarable : Datum → Prop
  | .list ds => AllDeclarable ds
  | .sExp ds last => ds ≠ [] ∧ AllDeclarable ds ∧ Declarable last
  | .symbol s => s ≠ .nil
  | .abbrev _ _ => False
  | .vector _ => False
  | _ => True

/-- `Declarable`, for every element. -/
def AllDeclarable : List Datum → Prop
  | [] => True
  | d :: ds => Declarable d ∧ AllDeclarable ds

end

/-- The datum is declared with enough fuel. -/
def Declares (d : Datum) : Prop := ∃ o N, ∀ fuel, N ≤ fuel → createConsts fuel d = some o

theorem Declares.pair {car cdr : Datum} (hcar : Declares car) (hcdr : Declares cdr) :
    Declares (.sExp [car] cdr) := by
  obtain ⟨o, N, h⟩ := hcar
  obtain ⟨o', N', h'⟩ := hcdr
  refine ⟨.pair o o', max N N' + 1, fun fuel hfuel => ?_⟩
  obtain ⟨fuel, rfl⟩ : ∃ k, fuel = k + 1 := ⟨fuel - 1, by omega⟩
  simp [createConsts, h fuel (by omega), h' fuel (by omega)]

/-- A list is declared as the pairs that `listToSExp` makes of it. -/
theorem Declares.of_listToSExp (hd : listToSExp d = some d') (h : Declares d')
    (hstep : ∀ fuel, createConsts (fuel + 1) d = (listToSExp d).bind (createConsts fuel)) :
    Declares d := by
  obtain ⟨o, N, h⟩ := h
  refine ⟨o, N + 1, fun fuel hfuel => ?_⟩
  obtain ⟨fuel, rfl⟩ : ∃ k, fuel = k + 1 := ⟨fuel - 1, by omega⟩
  rw [hstep, hd, Option.bind_some, h fuel (by omega)]

theorem declares_atom {o : Obj} (h : ∀ fuel, createConsts (fuel + 1) d = some o) : Declares d := by
  refine ⟨o, 1, fun fuel hfuel => ?_⟩
  obtain ⟨fuel, rfl⟩ : ∃ k, fuel = k + 1 := ⟨fuel - 1, by omega⟩
  exact h fuel

mutual

/-- A declarable datum and its pairs are declared. -/
theorem declares_of_declarable :
    (d : Datum) → Declarable d → Declares d ∧ ∃ d', listToSExp d = some d' ∧ Declares d'
  | .void, _ => ⟨declares_atom fun _ => rfl, _, rfl, declares_atom fun _ => rfl⟩
  | .boolean _, _ => ⟨declares_atom fun _ => rfl, _, rfl, declares_atom fun _ => rfl⟩
  | .number _, _ => ⟨declares_atom fun _ => rfl, _, rfl, declares_atom fun _ => rfl⟩
  | .character _, _ => ⟨declares_atom fun _ => rfl, _, rfl, declares_atom fun _ => rfl⟩
  | .string _, _ => ⟨declares_atom fun _ => rfl, _, rfl, declares_atom fun _ => rfl⟩
  | .symbol (.sym _), _ => ⟨declares_atom fun _ => rfl, _, rfl, declares_atom fun _ => rfl⟩
  | .symbol .nil, h => absurd rfl h
  | .list [], _ => ⟨declares_atom fun _ => rfl, _, rfl, declares_atom fun _ => rfl⟩
  | .list (d :: ds), h => by
    obtain ⟨d', hd', hdec⟩ := declares_listTail (d :: ds) h
    have hl : listToSExp (.list (d :: ds)) = some d' := hd'
    exact ⟨.of_listToSExp hl hdec fun _ => rfl, d', hl, hdec⟩
  | .sExp ds last, h => by
    have hlast := (declares_of_declarable last h.2.2).1
    obtain ⟨d', hd', hdec⟩ := declares_sExpTail last hlast ds h.1 h.2.1
    refine ⟨?_, d', hd', hdec⟩
    match ds, hd' with
    | [d], hd' =>
      obtain rfl := Option.some.inj hd'
      exact hdec
    | d :: d₂ :: ds, hd' => exact Declares.of_listToSExp hd' hdec fun _ => rfl

theorem declares_listTail :
    (ds : List Datum) → AllDeclarable ds → ∃ d', listTail ds = some d' ∧ Declares d'
  | [], _ => ⟨_, rfl, declares_atom fun _ => rfl⟩
  | d :: ds, h => by
    obtain ⟨-, car, hcar, hcar'⟩ := declares_of_declarable d h.1
    obtain ⟨cdr, hcdr, hcdr'⟩ := declares_listTail ds h.2
    exact ⟨.sExp [car] cdr, by simp [listTail, hcar, hcdr], hcar'.pair hcdr'⟩

theorem declares_sExpTail (last : Datum) (hlast : Declares last) :
    (ds : List Datum) → ds ≠ [] → AllDeclarable ds →
      ∃ d', sExpTail last ds = some d' ∧ Declares d'
  | [], h, _ => absurd rfl h
  | d :: ds, _, h => by
    obtain ⟨hd, car, hcar, hcar'⟩ := declares_of_declarable d h.1
    have ih := declares_sExpTail last hlast ds
    cases ds with
    | nil => exact ⟨_, rfl, hd.pair hlast⟩
    | cons d₂ ds =>
      obtain ⟨cdr, hcdr, hcdr'⟩ := ih (by simp) h.2
      refine ⟨.sExp [car] cdr, ?_, hcar'.pair hcdr'⟩
      rw [sExpTail]
      simp [hcar, hcdr]

end

mutual

/-- What `listToSExp` makes of a datum is no better than the datum. -/
theorem declarable_of_listToSExp :
    (d : Datum) → {d' : Datum} → listToSExp d = some d' → Declarable d' → Declarable d
  | .list ds, _, hd, h => allDeclarable_of_listTail ds hd h
  | .sExp ds last, _, hd, h => declarable_of_sExpTail last ds hd h
  | .void, _, _, _ => trivial
  | .boolean _, _, _, _ => trivial
  | .number _, _, _, _ => trivial
  | .character _, _, _, _ => trivial
  | .string _, _, _, _ => trivial
  | .symbol _, _, hd, h => Option.some.inj hd ▸ h
  | .abbrev _ _, _, hd, h => Option.some.inj hd ▸ h
  | .vector _, _, hd, h => Option.some.inj hd ▸ h

theorem allDeclarable_of_listTail :
    (ds : List Datum) → {d' : Datum} → listTail ds = some d' → Declarable d' → AllDeclarable ds
  | [], _, _, _ => trivial
  | d :: ds, d', hd, h => by
    simp only [listTail, bind, Option.bind_eq_some_iff, pure, Option.some.injEq] at hd
    obtain ⟨car, hcar, cdr, hcdr, rfl⟩ := hd
    exact ⟨declarable_of_listToSExp d hcar h.2.1.1, allDeclarable_of_listTail ds hcdr h.2.2⟩

theorem declarable_of_sExpTail (last : Datum) :
    (ds : List Datum) → {d' : Datum} → sExpTail last ds = some d' → Declarable d' →
      ds ≠ [] ∧ AllDeclarable ds ∧ Declarable last
  | [], _, hd, _ => nomatch hd
  | d :: ds, d', hd, h => by
    have hcar' : ∀ {car}, listToSExp d = some car → Declarable car → Declarable d :=
      fun hcar => declarable_of_listToSExp d hcar
    have ih : ∀ {d'}, sExpTail last ds = some d' → Declarable d' → _ :=
      fun hd h => declarable_of_sExpTail last ds hd h
    rw [sExpTail] at hd
    cases ds with
    | nil =>
      obtain rfl := Option.some.inj hd
      exact h
    | cons d₂ ds =>
      simp only [List.isEmpty_cons, Bool.false_eq_true, if_false, bind, Option.bind_eq_some_iff,
        pure, Option.some.injEq] at hd
      obtain ⟨car, hcar, cdr, hcdr, rfl⟩ := hd
      obtain ⟨-, htail, hlast⟩ := ih hcdr h.2.2
      exact ⟨by simp, ⟨hcar' hcar h.2.1.1, htail⟩, hlast⟩

end

/-- **Only declarable data are declared**: for any other one the converter stops with an error, or
calls itself for ever. -/
theorem declarable_of_createConsts {o : Obj} (h : createConsts fuel d = some o) : Declarable d := by
  induction fuel generalizing d o with
  | zero => exact nomatch h
  | succ fuel ih =>
    have hfall : ∀ {d}, (listToSExp d).bind (createConsts fuel) = some o → Declarable d := by
      intro d h
      obtain ⟨d', hd', hmade⟩ := Option.bind_eq_some_iff.mp h
      exact declarable_of_listToSExp d hd' (ih hmade)
    match d, h with
    | .void, _ => trivial
    | .boolean _, _ => trivial
    | .number _, _ => trivial
    | .character _, _ => trivial
    | .string _, _ => trivial
    | .symbol .nil, h => exact nomatch h
    | .symbol (.sym _), _ => exact Sym.noConfusion
    | .list [], _ => trivial
    | .list (_ :: _), h => exact hfall h
    | .abbrev _ _, h => exact hfall h
    | .vector _, h => exact hfall h
    | .sExp [] _, h => exact hfall h
    | .sExp [car] cdr, h =>
      simp only [createConsts, bind, Option.bind_eq_some_iff] at h
      obtain ⟨_, hcar, _, hcdr, -⟩ := h
      exact ⟨by simp, ⟨ih hcar, trivial⟩, ih hcdr⟩
    | .sExp (_ :: _ :: _) _, h => exact hfall h

/-! ## Code

The converter ends with a result exactly where every instruction can be converted. -/

mutual

/-- The instructions that are converted. -/
def Converts (env : CompileTimeEnvt) : Code → Prop
  | .fetchConst d => Declarable d
  | .callBuiltin s _ => s ≠ .nil
  | .ifTrue con alt => AllConvert env con ∧ AllConvert env alt
  | .ifFalse con alt => AllConvert env con ∧ AllConvert env alt
  | .lookupVar x => env.Binds x
  | .newBind x => x ∈ getBindings env
  | .reBind x => x ∈ getBindings env
  | .makeClosure name (.args args) body =>
    name ≠ .nil ∧ AllConvert (.envtFrame env (args ++ scanForNewbind body)) body
  | .makeClosure _ (.args2 _ _) _ => False
  | _ => True

/-- `Converts`, for every instruction. -/
def AllConvert (env : CompileTimeEnvt) : List Code → Prop
  | [] => True
  | c :: cs => Converts env c ∧ AllConvert env cs

end

theorem allConvert_append (env : CompileTimeEnvt) (cs cs' : List Code) :
    AllConvert env (cs ++ cs') ↔ AllConvert env cs ∧ AllConvert env cs' := by
  induction cs with
  | nil => simp [AllConvert]
  | cons c cs ih => simp only [List.cons_append, AllConvert, ih, and_assoc]

/-- With enough fuel there is a statement. -/
def Eventually {α : Type} (f : ℕ → Option α) : Prop := ∃ N, ∀ fuel, N ≤ fuel → (f fuel).isSome

theorem eventually_of_isSome {α : Type} {o : Option α} (h : o.isSome) : Eventually fun _ => o :=
  ⟨0, fun _ _ => h⟩

theorem Eventually.map {α β : Type} {f : ℕ → Option α} (hf : Eventually f) (k : α → β) :
    Eventually fun fuel => (f fuel).map k := by
  obtain ⟨N, h⟩ := hf
  exact ⟨N, fun fuel hfuel => by simpa using h fuel hfuel⟩

theorem Eventually.map₂ {α β γ : Type} {f : ℕ → Option α} {g : ℕ → Option β} (hf : Eventually f)
    (hg : Eventually g) (k : α → β → γ) :
    Eventually fun fuel => (f fuel).bind fun a => (g fuel).bind fun b => some (k a b) := by
  obtain ⟨N, h⟩ := hf
  obtain ⟨M, h'⟩ := hg
  refine ⟨max N M, fun fuel hfuel => ?_⟩
  obtain ⟨a, ha⟩ := Option.isSome_iff_exists.mp (h fuel (by omega))
  obtain ⟨b, hb⟩ := Option.isSome_iff_exists.mp (h' fuel (by omega))
  simp [ha, hb]

mutual

theorem eventually_instr2c (env : CompileTimeEnvt) :
    (c : Code) → Converts env c → Eventually fun fuel => instr2c fuel env c
  | .fetchConst d, h => by
    obtain ⟨⟨o, N, hN⟩, -⟩ := declares_of_declarable d h
    exact ⟨N, fun fuel hfuel => by simp [instr2c, hN fuel hfuel]⟩
  | .blankLn, _ => eventually_of_isSome rfl
  | .nop, _ => eventually_of_isSome rfl
  | .push, _ => eventually_of_isSome rfl
  | .label _, _ => eventually_of_isSome rfl
  | .leaveProc, _ => eventually_of_isSome rfl
  | .apply, _ => eventually_of_isSome rfl
  | .callBuiltin (.sym _) _, _ => eventually_of_isSome rfl
  | .callBuiltin .nil _, h => absurd rfl h
  | .pushCont _, _ => eventually_of_isSome rfl
  | .goto _, _ => eventually_of_isSome rfl
  | .moveSp _, _ => eventually_of_isSome rfl
  | .accStack _, _ => eventually_of_isSome rfl
  | .ifTrue con alt, h =>
    (eventually_convSequence env con h.1).map₂ (eventually_convSequence env alt h.2) Stmt.ifTruep
  | .ifFalse con alt, h =>
    (eventually_convSequence env con h.1).map₂ (eventually_convSequence env alt h.2) Stmt.ifFalsep
  | .lookupVar x, h => ⟨0, fun _ _ => by
    simp only [instr2c, Option.isSome_map]
    exact lookupvar'_isSome.mpr h⟩
  | .newBind x, h => ⟨0, fun _ _ => by
    simp only [instr2c, Option.isSome_map]
    exact lookupvarAtCurrentEnvt_isSome.mpr h⟩
  | .reBind x, h => ⟨0, fun _ _ => by
    simp only [instr2c, Option.isSome_map]
    exact lookupvarAtCurrentEnvt_isSome.mpr h⟩
  | .makeClosure (.sym name) (.args args) body, h =>
    (eventually_convSequence (.envtFrame env (args ++ scanForNewbind body)) body h.2).map _
  | .makeClosure .nil (.args _) _, h => absurd rfl h.1
  | .makeClosure .nil (.args2 _ _) _, h => h.elim
  | .makeClosure (.sym _) (.args2 _ _) _, h => h.elim

theorem eventually_convSequence (env : CompileTimeEnvt) :
    (cs : List Code) → AllConvert env cs → Eventually fun fuel => convSequence fuel env cs
  | [], _ => eventually_of_isSome rfl
  | c :: cs, h =>
    (eventually_instr2c env c h.1).map₂ (eventually_convSequence env cs h.2) List.cons

end

mutual

theorem converts_of_instr2c (fuel : ℕ) (env : CompileTimeEnvt) :
    (c : Code) → (instr2c fuel env c).isSome → Converts env c
  | .fetchConst d, h => by
    rw [instr2c, Option.isSome_map] at h
    obtain ⟨o, ho⟩ := Option.isSome_iff_exists.mp h
    exact declarable_of_createConsts ho
  | .blankLn, _ => trivial
  | .nop, _ => trivial
  | .push, _ => trivial
  | .label _, _ => trivial
  | .leaveProc, _ => trivial
  | .apply, _ => trivial
  | .callBuiltin (.sym _) _, _ => Sym.noConfusion
  | .callBuiltin .nil _, h => nomatch h
  | .pushCont _, _ => trivial
  | .goto _, _ => trivial
  | .moveSp _, _ => trivial
  | .accStack _, _ => trivial
  | .ifTrue con alt, h => by
    simp only [instr2c, bind, Option.isSome_iff_exists, Option.bind_eq_some_iff] at h
    obtain ⟨_, _, hcon, _, halt, -⟩ := h
    exact ⟨allConvert_of_convSequence fuel env con (by rw [hcon]; rfl),
      allConvert_of_convSequence fuel env alt (by rw [halt]; rfl)⟩
  | .ifFalse con alt, h => by
    simp only [instr2c, bind, Option.isSome_iff_exists, Option.bind_eq_some_iff] at h
    obtain ⟨_, _, hcon, _, halt, -⟩ := h
    exact ⟨allConvert_of_convSequence fuel env con (by rw [hcon]; rfl),
      allConvert_of_convSequence fuel env alt (by rw [halt]; rfl)⟩
  | .lookupVar x, h => by
    rw [instr2c, Option.isSome_map] at h
    exact lookupvar'_isSome.mp h
  | .newBind x, h => by
    rw [instr2c, Option.isSome_map] at h
    exact lookupvarAtCurrentEnvt_isSome.mp h
  | .reBind x, h => by
    rw [instr2c, Option.isSome_map] at h
    exact lookupvarAtCurrentEnvt_isSome.mp h
  | .makeClosure (.sym name) (.args args) body, h => by
    rw [instr2c, Option.isSome_map] at h
    exact ⟨Sym.noConfusion, allConvert_of_convSequence fuel _ body h⟩
  | .makeClosure .nil _ _, h => nomatch h
  | .makeClosure (.sym _) (.args2 _ _) _, h => nomatch h

theorem allConvert_of_convSequence (fuel : ℕ) (env : CompileTimeEnvt) :
    (cs : List Code) → (convSequence fuel env cs).isSome → AllConvert env cs
  | [], _ => trivial
  | c :: cs, h => by
    simp only [convSequence, bind, Option.isSome_iff_exists, Option.bind_eq_some_iff] at h
    obtain ⟨_, _, hc, _, hcs, -⟩ := h
    exact ⟨converts_of_instr2c fuel env c (by rw [hc]; rfl),
      allConvert_of_convSequence fuel env cs (by rw [hcs]; rfl)⟩

end

/-- **Conversion succeeds** on code whose instructions are converted, and on no other. -/
theorem exists_convert_iff (code : List Code) :
    (∃ fuel, (convert fuel code).isSome) ↔ AllConvert (topEnvt code) code := by
  constructor
  · rintro ⟨fuel, h⟩
    exact allConvert_of_convSequence fuel _ code h
  · intro h
    obtain ⟨N, hN⟩ := eventually_convSequence _ code h
    exact ⟨N, hN N (Nat.le_refl N)⟩

end SchemeOs.Compiler
