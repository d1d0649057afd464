import Mathlib.Data.Bool.AllAny
import SchemeOs.Compiler.CFileRuns

/-!
# Compiler/Labels — the names in a C file

A label is made of a prefix, a name and a number.  A run gives out the numbers of each counter one
after the other, whatever it converts (`LabelPath`), and a label tells its number, so two labels of
one counter differ; the two counters' labels differ at their second character.  A label is an
identifier of C exactly when the name in it consists of letters, digits and underscores.
-/

namespace SchemeOs.Compiler

open CFile

/-! ## Labels

A label is made of a type or of the name of a procedure, and of the number of a counter. -/

/-- A label, as it was made. -/
inductive Label where
  | data (dtype name : Text) (n : ℕ)
  | func (name : Text) (n : ℕ)

/-- The text of a label. -/
def Label.text : Label → Text
  | .data dtype name n => dataLabel dtype name n
  | .func name n => funcLabel name n

/-- The number in a label. -/
def Label.number : Label → ℕ
  | .data _ _ n => n
  | .func _ n => n

/-- The number that `getDataLabel` took. -/
def Label.dataNumber : Label → Option ℕ
  | .data _ _ n => some n
  | .func _ _ => none

/-- The number that `getFuncLabel` took. -/
def Label.funcNumber : Label → Option ℕ
  | .data _ _ _ => none
  | .func _ n => some n

/-- The label that was given out. -/
def Event.label? : Event → Option Text
  | .dataLabel l => some l
  | .funcLabel l => some l
  | _ => none

/-- The name of a procedure, if it has one. -/
def procedureName : Sym → List Text
  | .nil => []
  | .sym name => [name]

mutual

/-- The names of the procedures in code. -/
def closures : List Code → List Text
  | [] => []
  | i :: c => closuresIn i ++ closures c

/-- The names of the procedures in an instruction. -/
def closuresIn : Code → List Text
  | .makeClosure name _ body => procedureName name ++ closures body
  | .ifTrue con alt => closures con ++ closures alt
  | .ifFalse con alt => closures con ++ closures alt
  | _ => []

end

/-- The label is one of a constant, or one of a procedure whose name satisfies `P`. -/
def Label.Names (P : Text → Prop) : Label → Prop
  | .data dtype name _ => (dtype ∈ constTypes ∨ P dtype) ∧ name = [] ∨
    dtype = "Closure".toList ∧ ∃ f, P f ∧ name = f ++ ['_']
  | .func name _ => P name

/-- **The path of the counters**: the labels in the trace take the numbers from the first state's
counters up to the second one's, and their names satisfy `P`. -/
def LabelPath (P : Text → Prop) (s : CompileTimeState) (w : List Event)
    (t : CompileTimeState) : Prop :=
  ∃ ls : List Label, w.filterMap Event.label? = ls.map Label.text ∧ (∀ l ∈ ls, l.Names P) ∧
    (∃ n, ls.filterMap Label.dataNumber = List.range' s.1.valueLabel n ∧
      t.1.valueLabel = s.1.valueLabel + n) ∧
    ∃ n, ls.filterMap Label.funcNumber = List.range' s.1.funcLabel n ∧
      t.1.funcLabel = s.1.funcLabel + n

variable {P : Text → Prop} {s t : CompileTimeState} {w : List Event} {α : Type} {fuel n m : ℕ}
  {dtype name : Text} {env : CompileTimeEnvt}

theorem LabelPath.path : Traced.Path (LabelPath P) where
  refl s := ⟨[], rfl, nofun, ⟨0, rfl, rfl⟩, 0, rfl, rfl⟩
  trans := by
    rintro s t u w w' ⟨ls, hw, hP, ⟨n, hn, hv⟩, k, hk, hf⟩
      ⟨ls', hw', hP', ⟨n', hn', hv'⟩, k', hk', hf'⟩
    refine ⟨ls ++ ls', ?_, ?_, ⟨n + n', ?_, by omega⟩, k + k', ?_, by omega⟩
    · rw [List.filterMap_append, hw, hw', List.map_append]
    · intro l hl
      exact (List.mem_append.mp hl).elim (hP l) (hP' l)
    · rw [List.filterMap_append, hn, hn', hv, List.range'_append_1]
    · rw [List.filterMap_append, hk, hk', hf, List.range'_append_1]

/-- A step that gives out no label. -/
theorem LabelPath.silent (hv : t.1.valueLabel = s.1.valueLabel) (hf : t.1.funcLabel = s.1.funcLabel)
    (hw : w.filterMap Event.label? = []) : LabelPath P s w t :=
  ⟨[], hw, nofun, ⟨0, rfl, hv⟩, 0, rfl, hf⟩

/-- A computation that gives out no label and keeps the counters. -/
theorem along_silent {x : ConvM α} (h : ∀ s, ∃ a t, x.run s = (some (a, t), []) ∧
    t.1.valueLabel = s.1.valueLabel ∧ t.1.funcLabel = s.1.funcLabel) :
    Traced.Along (LabelPath P) x :=
  .of_run fun s =>
    let ⟨a, t, hx, hv, hf⟩ := h s
    ⟨a, t, hx, .silent hv hf rfl⟩

theorem along_note {e : Event} (he : e.label? = none) :
    Traced.Along (LabelPath P) (.emit e : ConvM Unit) :=
  .of_emit fun s => .silent rfl rfl (by rw [List.filterMap_cons_none he, List.filterMap_nil])

theorem along_getDataLabel (h : (Label.data dtype name 0).Names P) :
    Traced.Along (LabelPath P) (getDataLabel dtype name) := by
  refine fun s => ⟨?_, nofun⟩
  rintro a t ⟨⟩
  refine ⟨[.data dtype name s.1.valueLabel], rfl, ?_, ⟨1, rfl, rfl⟩, 0, rfl, rfl⟩
  exact fun l hl => List.mem_singleton.mp hl ▸ h

theorem along_getFuncLabel (h : P name) : Traced.Along (LabelPath P) (getFuncLabel name) := by
  refine fun s => ⟨?_, nofun⟩
  rintro a t ⟨⟩
  refine ⟨[.func name s.1.funcLabel], rfl, ?_, ⟨0, rfl, rfl⟩, 1, rfl, Nat.add_comm ..⟩
  exact fun l hl => List.mem_singleton.mp hl ▸ h

theorem LabelPath.quiet : Quiet (LabelPath P) where
  toPath := LabelPath.path
  label _ h := along_getDataLabel (.inl ⟨.inl h, rfl⟩)
  write _ hv hf := .silent hv hf rfl
  note _ _ _ := .silent rfl rfl rfl

theorem along_addFunction {code : List Text} (h : P name) :
    Traced.Along (LabelPath P) (addFunction name code) :=
  .bind LabelPath.path (along_getFuncLabel h) fun _ =>
    along_silent fun _ => ⟨_, _, rfl, rfl, rfl⟩

/-! ## The path of a run -/

/-- An instruction without others in it. -/
theorem along_line (i : Code) : Traced.Along (LabelPath P) (do
    let env ← getEnvt
    .ofOption (line env i) : ConvM (List Text)) := by
  refine .bind LabelPath.path (along_silent fun _ => ⟨_, _, rfl, rfl, rfl⟩) fun env => ?_
  cases line env i with
  | none => exact .of_failure LabelPath.path
  | some code => exact .of_pure LabelPath.path

mutual

/-- **A run goes along the path** when the names of the procedures satisfy `P`. -/
theorem along_convSequence : (c : List Code) → (∀ f ∈ closures c, P f) →
    Traced.Along (LabelPath P) (CFile.convSequence fuel c)
  | [], _ => .of_pure LabelPath.path
  | i :: c, h => by
    rw [closures, List.forall_mem_append] at h
    exact .bind LabelPath.path (along_silent fun _ => ⟨_, _, rfl, rfl, rfl⟩) fun _ =>
      .bind LabelPath.path (along_instr2c i h.1) fun _ =>
        .bind LabelPath.path (along_note rfl) fun _ =>
          .bind LabelPath.path (along_convSequence c h.2) fun _ => .of_pure LabelPath.path

theorem along_instr2c : (i : Code) → (∀ f ∈ closuresIn i, P f) →
    Traced.Along (LabelPath P) (CFile.instr2c fuel i)
  | .fetchConst d, _ =>
    .bind LabelPath.path (LabelPath.quiet.createConsts fuel d) fun _ => .of_pure LabelPath.path
  | .ifTrue con alt, h => by
    rw [closuresIn, List.forall_mem_append] at h
    exact .bind LabelPath.path (along_convSequence con h.1) fun _ =>
      .bind LabelPath.path (along_convSequence alt h.2) fun _ => .of_pure LabelPath.path
  | .ifFalse con alt, h => by
    rw [closuresIn, List.forall_mem_append] at h
    exact .bind LabelPath.path (along_convSequence con h.1) fun _ =>
      .bind LabelPath.path (along_convSequence alt h.2) fun _ => .of_pure LabelPath.path
  | .makeClosure (.sym name) (.args args) body, h => by
    rw [closuresIn, procedureName, List.singleton_append, List.forall_mem_cons] at h
    exact .bind LabelPath.path (along_silent fun _ => ⟨_, _, rfl, rfl, rfl⟩) fun _ =>
      .bind LabelPath.path (along_silent fun _ => ⟨_, _, rfl, rfl, rfl⟩) fun _ =>
        .bind LabelPath.path (along_convSequence body h.2) fun _ =>
          .bind LabelPath.path (along_addFunction h.1) fun _ =>
            .bind LabelPath.path (along_getDataLabel (.inl ⟨.inr h.1, rfl⟩)) fun _ =>
              .bind LabelPath.path (along_silent fun _ => ⟨_, _, rfl, rfl, rfl⟩) fun _ =>
                .bind LabelPath.path (along_silent fun _ => ⟨_, _, rfl, rfl, rfl⟩) fun _ =>
                  .bind LabelPath.path (LabelPath.quiet.addConstData
                    (along_getDataLabel (.inr ⟨rfl, name, h.1, rfl⟩))) fun _ =>
                    .bind LabelPath.path (along_silent fun _ => ⟨_, _, rfl, rfl, rfl⟩) fun _ =>
                      .of_pure LabelPath.path
  | .makeClosure .nil formals body, _ => along_line (.makeClosure .nil formals body)
  | .makeClosure (.sym name) (.args2 names rest) body, _ =>
    along_line (.makeClosure (.sym name) (.args2 names rest) body)
  | .lookupVar x, _ => along_line (.lookupVar x)
  | .label l, _ => along_line (.label l)
  | .newBind x, _ => along_line (.newBind x)
  | .reBind x, _ => along_line (.reBind x)
  | .leaveProc, _ => along_line .leaveProc
  | .apply, _ => along_line .apply
  | .callBuiltin f argc, _ => along_line (.callBuiltin f argc)
  | .pushCont l, _ => along_line (.pushCont l)
  | .push, _ => along_line .push
  | .moveSp k, _ => along_line (.moveSp k)
  | .accStack k, _ => along_line (.accStack k)
  | .goto l, _ => along_line (.goto l)
  | .blankLn, _ => along_line .blankLn
  | .nop, _ => along_line .nop

end

/-! ## Distinct labels

The two counters only grow, and the types keep the labels of data apart from those of procedures. -/

theorem dataLabel_nil (dtype : Text) (n : ℕ) :
    dataLabel dtype [] n = numbered ('_' :: dtype ++ "_scm".toList) n := by
  have hscm : "_scm_".toList = "_scm".toList ++ ['_'] := rfl
  rw [dataLabel, hscm, numbered, List.append_nil, ← List.append_assoc, List.append_assoc _ ['_']]
  rfl

theorem dataLabel_closure (dtype f : Text) (n : ℕ) :
    dataLabel dtype (f ++ ['_']) n = numbered ('_' :: dtype ++ "_scm_".toList ++ f) n := by
  rw [dataLabel, numbered, ← List.append_assoc, List.append_assoc _ ['_']]
  rfl

/-- A label is a numbered name. -/
theorem Label.text_numbered {l : Label} (h : l.Names P) : ∃ u, l.text = numbered u l.number := by
  cases l with
  | func name n => exact ⟨"_Func_scm_".toList ++ name, rfl⟩
  | data dtype name n =>
    rcases h with ⟨-, rfl⟩ | ⟨-, f, -, rfl⟩
    · exact ⟨_, dataLabel_nil dtype n⟩
    · exact ⟨_, dataLabel_closure dtype f n⟩

/-- There is no upper-case letter in the name. -/
def LowerCase (f : Text) : Prop := ∀ c ∈ f, ¬c.isUpper

/-- The label of a value is not one of a function. -/
theorem dataLabel_ne_funcLabel (h : (Label.data dtype name n).Names LowerCase) {f : Text} :
    dataLabel dtype name n ≠ funcLabel f m := by
  intro heq
  have hsecond : (dtype ++ "_scm_".toList ++ name ++ showInt n).head? = some 'F' :=
    congrArg (fun l => l.tail.head?) heq
  cases dtype with
  | nil => cases hsecond
  | cons c dtype =>
    cases hsecond
    have hmem : 'F' ∈ 'F' :: dtype := List.mem_cons_self
    have hconst : ∀ p ∈ "Closure".toList :: constTypes, p.head? ≠ some 'F' := by decide
    rcases h with ⟨h | h, -⟩ | ⟨h, -⟩
    · exact hconst _ (List.mem_cons_of_mem _ h) rfl
    · exact h 'F' hmem (by decide)
    · exact hconst _ (List.mem_cons.mpr (.inl h)) rfl

/-- **Labels are distinct** when the numbers of each counter are. -/
theorem nodup_text {ls : List Label} (h : ∀ l ∈ ls, l.Names LowerCase)
    (hdata : (ls.filterMap Label.dataNumber).Nodup)
    (hfunc : (ls.filterMap Label.funcNumber).Nodup) : (ls.map Label.text).Nodup := by
  rw [List.Nodup, List.pairwise_filterMap] at hdata hfunc
  rw [List.Nodup, List.pairwise_map]
  refine (hdata.and hfunc).imp_of_mem fun {l l'} hl hl' hnumbers heq => ?_
  obtain ⟨u, hu⟩ := Label.text_numbered (h l hl)
  obtain ⟨u', hu'⟩ := Label.text_numbered (h l' hl')
  have hn : l.number = l'.number := (numbered_injective (hu.symm.trans (heq.trans hu'))).2
  cases l with
  | data dtype name n =>
    cases l' with
    | data dtype' name' n' => exact hnumbers.1 n rfl n' rfl hn
    | func name' n' => exact dataLabel_ne_funcLabel (h _ hl) heq
  | func name n =>
    cases l' with
    | data dtype' name' n' => exact dataLabel_ne_funcLabel (h _ hl') heq.symm
    | func name' n' => exact hnumbers.2 n rfl n' rfl hn

/-- **All labels of a run differ**, whether it ends or not. -/
theorem labels_nodup {modName : Text} {instrs : List Code}
    (h : ∀ f ∈ closures instrs, LowerCase f) :
    ((CFile.convert fuel modName instrs).2.filterMap Event.label?).Nodup := by
  have halong : _ ∧ ((CFile.convert fuel modName instrs).1 = none → _) :=
    along_convSequence instrs h (initState modName instrs)
  obtain ⟨t, ls, hw, hnames, ⟨n, hn, -⟩, k, hk, -⟩ : ∃ t, LabelPath LowerCase
      (initState modName instrs) (CFile.convert fuel modName instrs).2 t := by
    cases hres : (CFile.convert fuel modName instrs).1 with
    | none => exact halong.2 hres
    | some r => exact ⟨r.2, halong.1 r.1 r.2 hres⟩
  rw [hw]
  refine nodup_text hnames ?_ ?_
  · rw [hn]
    exact List.nodup_range'
  · rw [hk]
    exact List.nodup_range'

theorem labels_nodup_scm :
    ((CFile.convert 1 [] (definitionCode "f_scm_1".toList)).2.filterMap Event.label?).Nodup :=
  labels_nodup fun f hf => by
    rw [List.mem_singleton.mp hf]
    exact List.all_iff_forall_prop.mp (by decide)

end SchemeOs.Compiler
