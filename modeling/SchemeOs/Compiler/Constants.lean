import SchemeOs.Compiler.Conversion
import SchemeOs.Compiler.Labels
import SchemeOs.Compiler.Scmlex

/-!
# Compiler/Constants — what the constants of a program denote

An expression that `createConsts` returns denotes an object through the declarations of the data
field (`Denotes`).  In every state of a run the declarations have distinct labels, refer back only,
and contain one constant for each symbol of the table (`Declared`).  What is added later does not
change what an expression denotes, so at the end of a run each quoted datum is there as a structure
equal to it.
-/

namespace SchemeOs.Compiler

open CFile

variable {fuel n : ℕ} {s t : CompileTimeState} {w : List Event} {out : List Text}
  {data new : List Decl}
  {e : ObjExpr} {d d' last : Datum} {o o' : Obj} {l l' name : Text} {decl : Decl} {ds : List Datum}

/-! ## Data

What a quoted datum means, and which data the declarations can hold. -/

mutual

/-- The object that a datum stands for: pairs for a list, and the object behind the dot at its end.
-/
def meaning : Datum → Option Obj
  | .void => some .void
  | .boolean b => some (.bool b)
  | .number n => some (.int n)
  | .character c => some (.ascii c)
  | .string s => some (.string s)
  | .symbol (.sym s) => some (.symbol s)
  | .symbol .nil => none
  | .list ds => meaningTail (some .null) ds
  | .sExp ds last => meaningTail (meaning last) ds
  | .abbrev _ _ => none
  | .vector _ => none

/-- The object of a list with the elements `ds` in front of `last`. -/
def meaningTail (last : Option Obj) : List Datum → Option Obj
  | [] => last
  | d :: ds => do
    let car ← meaning d
    let cdr ← meaningTail last ds
    return .pair car cdr

end

theorem meaning_pair (car cdr : Datum) : meaning (.sExp [car] cdr) = do
    let a ← meaning car
    let b ← meaning cdr
    return .pair a b := rfl

/-- A printable ASCII character. -/
def Printable (c : Char) : Prop := ' ' ≤ c ∧ c ≤ '~'

mutual

/-- Tagged integers, booleans, printable characters, symbols with printable names, and lists, with
an element in front of every dot. -/
def Quotable : Datum → Prop
  | .boolean _ => True
  | .number n => Tagged n
  | .character c => Printable c
  | .symbol (.sym s) => ∀ c ∈ s, Printable c
  | .list ds => AllQuotable ds
  | .sExp ds last => ds ≠ [] ∧ AllQuotable ds ∧ Quotable last
  | _ => False

/-- `Quotable`, for every element. -/
def AllQuotable : List Datum → Prop
  | [] => True
  | d :: ds => Quotable d ∧ AllQuotable ds

end

mutual

/-- `listToSExp` keeps the meaning. -/
theorem meaning_listToSExp : (d : Datum) → {d' : Datum} → listToSExp d = some d' →
    meaning d' = meaning d ∧ (Quotable d → Quotable d')
  | .list ds, _, h => meaning_listTail ds h
  | .sExp ds last, _, h => meaning_sExpTail last ds h
  | .void, _, h => by
    cases h
    exact ⟨rfl, id⟩
  | .boolean _, _, h => by
    cases h
    exact ⟨rfl, id⟩
  | .number _, _, h => by
    cases h
    exact ⟨rfl, id⟩
  | .character _, _, h => by
    cases h
    exact ⟨rfl, id⟩
  | .string _, _, h => by
    cases h
    exact ⟨rfl, id⟩
  | .symbol _, _, h => by
    cases h
    exact ⟨rfl, id⟩
  | .abbrev _ _, _, h => by
    cases h
    exact ⟨rfl, id⟩
  | .vector _, _, h => by
    cases h
    exact ⟨rfl, id⟩

theorem meaning_listTail : (ds : List Datum) → {d' : Datum} → listTail ds = some d' →
    meaning d' = meaning (.list ds) ∧ (AllQuotable ds → Quotable d')
  | [], _, h => by
    cases h
    exact ⟨rfl, id⟩
  | d :: ds, _, h => by
    simp only [listTail, bind, Option.bind_eq_some_iff, pure, Option.some.injEq] at h
    obtain ⟨car, hcar, cdr, hcdr, rfl⟩ := h
    obtain ⟨hm, hq⟩ := meaning_listToSExp d hcar
    obtain ⟨hm', hq'⟩ := meaning_listTail ds hcdr
    refine ⟨?_, fun h => ⟨by simp, ⟨hq h.1, trivial⟩, hq' h.2⟩⟩
    rw [meaning_pair, hm, hm']
    rfl

theorem meaning_sExpTail (last : Datum) : (ds : List Datum) → {d' : Datum} →
    sExpTail last ds = some d' → meaning d' = meaningTail (meaning last) ds ∧
      (ds ≠ [] ∧ AllQuotable ds ∧ Quotable last → Quotable d')
  | [], _, h => nomatch h
  | d :: ds, d', h => by
    have hcar' : ∀ {car}, listToSExp d = some car → _ := fun h => meaning_listToSExp d h
    have ih : ∀ {d'}, sExpTail last ds = some d' → _ := fun h => meaning_sExpTail last ds h
    rw [sExpTail] at h
    cases ds with
    | nil =>
      cases h
      exact ⟨rfl, fun h => ⟨by simp, h.2.1, h.2.2⟩⟩
    | cons d₂ ds =>
      simp only [List.isEmpty_cons, Bool.false_eq_true, if_false, bind, Option.bind_eq_some_iff,
        pure,
        Option.some.injEq] at h
      obtain ⟨car, hcar, cdr, hcdr, rfl⟩ := h
      obtain ⟨hm, hq⟩ := hcar' hcar
      obtain ⟨hm', hq'⟩ := ih hcdr
      refine ⟨?_, fun h => ⟨by simp, ⟨hq h.2.1.1, trivial⟩, hq' ⟨by simp, h.2.1.2, h.2.2⟩⟩⟩
      rw [meaning_pair, hm, hm']
      rfl

end

mutual

theorem declarable_of_quotable : (d : Datum) → Quotable d → Declarable d
  | .list ds, h => allDeclarable_of_allQuotable ds h
  | .sExp ds last, h =>
    ⟨h.1, allDeclarable_of_allQuotable ds h.2.1, declarable_of_quotable last h.2.2⟩
  | .boolean _, _ => trivial
  | .number _, _ => trivial
  | .character _, _ => trivial
  | .symbol (.sym _), _ => nofun

theorem allDeclarable_of_allQuotable : (ds : List Datum) → AllQuotable ds → AllDeclarable ds
  | [], _ => trivial
  | d :: ds, h => ⟨declarable_of_quotable d h.1, allDeclarable_of_allQuotable ds h.2⟩

end

/-! ## Declarations -/

/-- The labels that an expression refers to. -/
def ObjExpr.refs : ObjExpr → List Text
  | .label l => [l]
  | _ => []

/-- The labels of the data field that a declaration refers to. -/
def Decl.refs : Decl → List Text
  | .const _ _ fields => fields.flatMap fun
    | .name l => [l]
    | .obj e => e.refs
    | _ => []
  | _ => []

/-- The declaration of a label. -/
def declOf (data : List Decl) (l : Text) : Option Decl := data.find? (·.label = l)

/-- The label is that of a constant of the type `proto` with the characters `cs`. -/
def TextConst (data : List Decl) (proto : Proto) (l : Text) (cs : List Char) : Prop :=
  ∃ sl str, declOf data l = some (.const proto l [.name sl, .length cs.length]) ∧
    declOf data sl = some str ∧ str.initialiser = some cs

/-- **What an expression denotes** through the declarations. -/
inductive Denotes (data : List Decl) : ObjExpr → Obj → Prop
  | void : Denotes data .void .void
  | bool (b) : Denotes data (.bool b) (.bool b)
  | null : Denotes data .null .null
  | int (v) : Denotes data (.int v) (.int (schemeObjToInt (schemeIntToObj v)))
  | ascii {c c'} : cChar (showChar c) = some c' → c'.toNat < 256 →
      Denotes data (.ascii c) (.ascii c')
  | string {l cs} : TextConst data .string l cs → Denotes data (.label l) (.string cs)
  | symbol {l cs} : TextConst data .symbol l cs → Denotes data (.label l) (.symbol cs)
  | pair {l car cdr a b} : declOf data l = some (.const .pair l [.obj car, .obj cdr]) →
      Denotes data car a → Denotes data cdr b → Denotes data (.label l) (.pair a b)

theorem TextConst.unique {proto proto' : Proto} {cs cs' : List Char} (h : TextConst data proto l cs)
    (h' : TextConst data proto' l cs') : proto = proto' ∧ cs = cs' := by
  obtain ⟨sl, str, hl, hstr, hinit⟩ := h
  obtain ⟨sl', str', hl', hstr', hinit'⟩ := h'
  simp only [hl, Option.some.injEq, Decl.const.injEq, List.cons.injEq, Field.name.injEq] at hl'
  obtain ⟨rfl, -, rfl, -⟩ := hl'
  rw [hstr] at hstr'
  cases hstr'
  exact ⟨rfl, Option.some.inj (hinit.symm.trans hinit')⟩

/-- **An expression denotes one object** at most. -/
theorem Denotes.unique (h : Denotes data e o) (h' : Denotes data e o') : o = o' := by
  induction h generalizing o' with
  | void => cases h'; rfl
  | bool b => cases h'; rfl
  | null => cases h'; rfl
  | int v => cases h'; rfl
  | ascii h _ =>
    cases h' with
    | ascii h' _ => rw [Option.some.inj (h.symm.trans h')]
  | string h =>
    cases h' with
    | string h' => rw [(h.unique h').2]
    | symbol h' => exact nomatch (h.unique h').1
    | pair hl _ _ =>
      obtain ⟨sl, str, hl', -⟩ := h
      rw [hl] at hl'
      cases hl'
  | symbol h =>
    cases h' with
    | string h' => exact nomatch (h.unique h').1
    | symbol h' => rw [(h.unique h').2]
    | pair hl _ _ =>
      obtain ⟨sl, str, hl', -⟩ := h
      rw [hl] at hl'
      cases hl'
  | pair hl _ _ iha ihb =>
    cases h' with
    | string h' =>
      obtain ⟨sl, str, hl', -⟩ := h'
      rw [hl] at hl'
      cases hl'
    | symbol h' =>
      obtain ⟨sl, str, hl', -⟩ := h'
      rw [hl] at hl'
      cases hl'
    | pair hl' ha hb =>
      rw [hl] at hl'
      cases hl'
      rw [iha ha, ihb hb]

/-! ## What is added later

A declaration is not changed, so that an object denotes the same datum in every longer file. -/

theorem declOf_cons :
    declOf (decl :: data) l = if decl.label = l then some decl else declOf data l := by
  rw [declOf, List.find?_cons]
  by_cases h : decl.label = l <;> simp [h, declOf]

theorem declOf_append (h : declOf data l = some decl) : declOf (data ++ new) l = some decl := by
  rw [declOf, List.find?_append, ← declOf, h]
  rfl

theorem declOf_append_of_fresh (h : l ∉ data.map Decl.label) :
    declOf (data ++ new) l = declOf new l := by
  rw [declOf, List.find?_append, List.find?_eq_none.mpr, Option.none_or, declOf]
  intro decl hdecl heq
  exact h (List.mem_map.mpr ⟨decl, hdecl, of_decide_eq_true heq⟩)

theorem TextConst.append {proto : Proto} {cs : List Char} (h : TextConst data proto l cs) :
    TextConst (data ++ new) proto l cs := by
  obtain ⟨sl, str, hl, hstr, hinit⟩ := h
  exact ⟨sl, str, declOf_append hl, declOf_append hstr, hinit⟩

/-- **Later declarations** do not change what an expression denotes. -/
theorem Denotes.append (h : Denotes data e o) : Denotes (data ++ new) e o := by
  induction h with
  | void => exact .void
  | bool b => exact .bool b
  | null => exact .null
  | int v => exact .int v
  | ascii h hlt => exact .ascii h hlt
  | string h => exact .string h.append
  | symbol h => exact .symbol h.append
  | pair hl _ _ iha ihb => exact .pair (declOf_append hl) iha ihb

/-! ## States of a run

Every reference is to an earlier declaration, and equal symbols are one object. -/

/-- The label is that of a `Symbol` constant with the name `name`. -/
def SymbolOf (data : List Decl) (l name : Text) : Prop :=
  ∃ sl, declOf data l = some (.const .symbol l [.name sl, .length name.length]) ∧
    declOf data sl = some (.string sl name)

/-- The labels of the declarations are distinct, their numbers are below `v`, and the declarations
refer to earlier ones only. -/
structure Chained (data : List Decl) (v : ℕ) : Prop where
  nodup : (data.map Decl.label).Nodup
  below : ∀ decl ∈ data, ∃ u k, decl.label = numbered u k ∧ k < v
  back : ∀ (i : ℕ) (decl : Decl), data[i]? = some decl → ∀ l ∈ decl.refs,
    ∃ j < i, ∃ earlier : Decl, data[j]? = some earlier ∧ earlier.label = l

/-- The declarations are chained, and the symbol table has the constants of the symbols. -/
structure Declared (s : CompileTimeState) : Prop where
  chained : Chained s.2.dataField s.1.valueLabel
  tab : ∀ name l, s.1.symbolTab.lookup (.sym name) = some l ↔ SymbolOf s.2.dataField l name

theorem SymbolOf.append (h : SymbolOf data l name) : SymbolOf (data ++ new) l name := by
  obtain ⟨sl, hl, hsl⟩ := h
  exact ⟨sl, declOf_append hl, declOf_append hsl⟩

theorem SymbolOf.textConst (h : SymbolOf data l name) (hname : ∀ c ∈ name, Printable c) :
    TextConst data .symbol l name := by
  obtain ⟨sl, hl, hsl⟩ := h
  refine ⟨sl, _, hl, hsl, (cString_showString name).mpr fun c hc => .inr ⟨(hname c hc).1, ?_⟩⟩
  exact lt_of_le_of_lt (hname c hc).2 (by decide)

theorem SymbolOf.unique {name' : Text} (h : SymbolOf data l name) (h' : SymbolOf data l name') :
    name = name' := by
  obtain ⟨sl, hl, hsl⟩ := h
  obtain ⟨sl', hl', hsl'⟩ := h'
  simp only [hl, Option.some.injEq, Decl.const.injEq, List.cons.injEq, Field.name.injEq] at hl'
  obtain ⟨-, -, rfl, -⟩ := hl'
  rw [hsl] at hsl'
  cases hsl'
  rfl

theorem declOf_eq_some (h : declOf data l = some decl) : decl ∈ data ∧ decl.label = l :=
  ⟨List.mem_of_find?_eq_some h, of_decide_eq_true (List.find?_some h :)⟩

theorem exists_declOf (h : l ∈ data.map Decl.label) : ∃ decl, declOf data l = some decl := by
  obtain ⟨decl, hdecl, rfl⟩ := List.mem_map.mp h
  exact Option.isSome_iff_exists.mp (List.find?_isSome.mpr ⟨decl, hdecl, decide_eq_true rfl⟩)

namespace Chained

variable {v k : ℕ} {u : Text}

theorem fresh (h : Chained data v) (hk : v ≤ k) : numbered u k ∉ data.map Decl.label := by
  intro hmem
  obtain ⟨decl, hdecl, hlabel⟩ := List.mem_map.mp hmem
  obtain ⟨u', k', heq, hlt⟩ := h.below decl hdecl
  have := (numbered_injective (hlabel.symm.trans heq)).2
  omega

theorem refs_mem (h : Chained data v) (hdecl : decl ∈ data) (hl : l ∈ decl.refs) :
    l ∈ data.map Decl.label := by
  obtain ⟨i, hi⟩ := List.getElem?_of_mem hdecl
  obtain ⟨j, -, earlier, hj, rfl⟩ := h.back i decl hi l hl
  exact List.mem_map_of_mem (List.mem_of_getElem? hj)

/-- **A declaration is added** with the next number. -/
theorem add (h : Chained data v) (hlabel : decl.label = numbered u v)
    (hrefs : ∀ l ∈ decl.refs, l ∈ data.map Decl.label) : Chained (data ++ [decl]) (v + 1) where
  nodup := by
    rw [List.map_append, List.map_singleton, List.nodup_append]
    refine ⟨h.nodup, List.nodup_singleton _, fun l hl l' hl' heq => ?_⟩
    rw [List.mem_singleton.mp hl', hlabel] at heq
    exact h.fresh (Nat.le_refl v) (heq ▸ hl)
  below d hd := by
    rcases List.mem_append.mp hd with hd | hd
    · obtain ⟨u, k, hk, hlt⟩ := h.below d hd
      exact ⟨u, k, hk, by omega⟩
    · exact ⟨u, v, List.mem_singleton.mp hd ▸ hlabel, Nat.lt_succ_self v⟩
  back i d hi l hl := by
    rcases Nat.lt_or_ge i data.length with hlt | hge
    · rw [List.getElem?_append_left hlt] at hi
      obtain ⟨j, hj, earlier, hearlier, heq⟩ := h.back i d hi l hl
      exact ⟨j, hj, earlier, by rwa [List.getElem?_append_left (by omega)], heq⟩
    · rw [List.getElem?_append_right hge] at hi
      obtain rfl := List.mem_singleton.mp (List.mem_of_getElem? hi)
      obtain ⟨earlier, hearlier, heq⟩ := List.mem_map.mp (hrefs l hl)
      obtain ⟨j, hj⟩ := List.getElem?_of_mem hearlier
      have hlt := (List.getElem?_eq_some_iff.mp hj).1
      exact ⟨j, by omega, earlier, by rwa [List.getElem?_append_left hlt], heq⟩

/-- A constant that is there stays what it is. -/
theorem symbolOf_append (h : Chained data v) (hl : l ∈ data.map Decl.label) :
    SymbolOf (data ++ new) l name ↔ SymbolOf data l name := by
  refine ⟨?_, SymbolOf.append⟩
  rintro ⟨sl, hdecl, hsl⟩
  obtain ⟨old, hold⟩ := exists_declOf hl
  rw [declOf_append hold] at hdecl
  cases hdecl
  obtain ⟨str, hstr⟩ := exists_declOf (h.refs_mem (declOf_eq_some hold).1
    (List.mem_flatMap.mpr ⟨.name sl, List.mem_cons_self, List.mem_cons_self⟩))
  rw [declOf_append hstr] at hsl
  cases hsl
  exact ⟨sl, hold, hstr⟩

/-- Declarations among which there is no `Symbol` constant do not change which symbols there are. -/
theorem symbolOf_append_plain (h : Chained data v)
    (hnew : ∀ l' fields, .const .symbol l' fields ∉ new) :
    SymbolOf (data ++ new) l name ↔ SymbolOf data l name := by
  by_cases hl : l ∈ data.map Decl.label
  · exact h.symbolOf_append hl
  · refine ⟨?_, SymbolOf.append⟩
    rintro ⟨sl, hdecl, -⟩
    rw [declOf_append_of_fresh hl] at hdecl
    exact absurd (declOf_eq_some hdecl).1 (hnew _ _)

end Chained

/-! ## Runs -/

/-- The expression denotes the datum if it is quotable, and is the label of a symbol's constant. -/
def ConstOf (data : List Decl) (d : Datum) (e : ObjExpr) : Prop :=
  (Quotable d → ∃ o, meaning d = some o ∧ Denotes data e o) ∧
    ∀ name, d = .symbol (.sym name) → ∃ l, e = .label l ∧ SymbolOf data l name

theorem ConstOf.append (h : ConstOf data d e) : ConstOf (data ++ new) d e := by
  refine ⟨fun hq => ?_, fun name hd => ?_⟩
  · obtain ⟨o, ho, hden⟩ := h.1 hq
    exact ⟨o, ho, hden.append⟩
  · obtain ⟨l, hl, hsym⟩ := h.2 name hd
    exact ⟨l, hl, hsym.append⟩

/-- The expression noted for a datum is one of it, and so is that in the code noted for a constant.
-/
def Event.Denoted (data : List Decl) : Event → Prop
  | .const d e => ConstOf data d e
  | .instr (.fetchConst d) _ code => ∃ e, code = [fetchLine e] ∧ ConstOf data d e
  | _ => True

theorem Event.Denoted.append {ev : Event} (h : ev.Denoted data) : ev.Denoted (data ++ new) := by
  cases ev with
  | const d e => exact ConstOf.append h
  | instr i env code =>
    cases i with
    | fetchConst d =>
      obtain ⟨e, hcode, he⟩ := h
      exact ⟨e, hcode, he.append⟩
    | _ => trivial
  | _ => trivial

/-- A label is given out. -/
def Event.GivesLabel : Event → Prop
  | .dataLabel _ => True
  | .funcLabel _ => True
  | _ => False

/-- From a state that is declared, a run leads to one that is, adds declarations at the end, and
notes expressions for what they denote there. -/
def Grows (s : CompileTimeState) (w : List Event) (t : CompileTimeState) : Prop :=
  Declared s → Declared t ∧ s.2.dataField <+: t.2.dataField ∧ ∀ ev ∈ w, ev.Denoted t.2.dataField

namespace Grows

variable {u : CompileTimeState} {w' : List Event}

theorem refl (s : CompileTimeState) : Grows s [] s := fun h => ⟨h, List.prefix_rfl, nofun⟩

theorem trans (h : Grows s w t) (h' : Grows t w' u) : Grows s (w ++ w') u := by
  intro hs
  obtain ⟨ht, hst, hw⟩ := h hs
  obtain ⟨hu, htu, hw'⟩ := h' ht
  refine ⟨hu, hst.trans htu, fun ev hev => ?_⟩
  obtain ⟨new, hnew⟩ := htu
  rcases List.mem_append.mp hev with hev | hev
  · rw [← hnew]
    exact (hw ev hev).append
  · exact hw' ev hev

/-- Labels are given out, and nothing is noted. -/
theorem of_quiet (h : Declared s → Declared t ∧ s.2.dataField <+: t.2.dataField)
    (hw : ∀ ev ∈ w, ev.GivesLabel) : Grows s w t := by
  intro hs
  refine ⟨(h hs).1, (h hs).2, fun ev hev => ?_⟩
  have hlabel := hw ev hev
  cases ev with
  | dataLabel l => trivial
  | funcLabel l => trivial
  | const d e => exact hlabel.elim
  | instr i env code => exact hlabel.elim

/-- An event that is true of the declarations is noted. -/
theorem note (h : Grows s w t) {ev : Event} (hev : Declared s → ev.Denoted t.2.dataField) :
    Grows s (w ++ [ev]) t := by
  intro hs
  obtain ⟨ht, hprefix, hw⟩ := h hs
  refine ⟨ht, hprefix, fun ev' hev' => ?_⟩
  rcases List.mem_append.mp hev' with hev' | hev'
  · exact hw ev' hev'
  · exact List.mem_singleton.mp hev' ▸ hev hs

end Grows

/-- A string, its constant of the type `proto`, and the symbol table as it was. -/
theorem chained_string (h : Chained s.2.dataField s.1.valueLabel) (proto : Proto) (cs : List Char) :
    Chained (stringState proto cs s).2.dataField (stringState proto cs s).1.valueLabel := by
  have hfirst : Decl.label (.string (dataLabel "c_string".toList [] s.1.valueLabel) cs) = _ :=
    dataLabel_nil _ _
  refine (h.add hfirst nofun).add (dataLabel_nil _ _) fun l hl => ?_
  have hlabel : l = dataLabel "c_string".toList [] s.1.valueLabel := List.mem_singleton.mp hl
  rw [hlabel, List.map_append]
  exact List.mem_append_right _ List.mem_cons_self

theorem declared_string (cs : List Char) (hs : Declared s) :
    Declared (stringState .string cs s) where
  chained := chained_string hs.chained .string cs
  tab name l := by
    refine (hs.tab name l).trans (Iff.symm ?_)
    change SymbolOf (s.2.dataField ++ [_] ++ [_]) l name ↔ _
    rw [List.append_assoc]
    exact hs.chained.symbolOf_append_plain (by simp)

/-- The state when a new symbol has been added to `s`. -/
def symbolState (name : Text) (s : CompileTimeState) : CompileTimeState :=
  ({ (stringState .symbol name s).1 with
     symbolTab := (.sym name, dataLabel Proto.symbol.text [] (s.1.valueLabel + 1)) ::
       s.1.symbolTab },
   (stringState .symbol name s).2)

/-- The constant of the new symbol. -/
theorem symbolOf_new (hs : Declared s) (name : Text) : SymbolOf (symbolState name s).2.dataField
    (dataLabel Proto.symbol.text [] (s.1.valueLabel + 1)) name := by
  have hfresh : ∀ k, s.1.valueLabel ≤ k → ∀ dtype,
      dataLabel dtype [] k ∉ s.2.dataField.map Decl.label := fun k hk dtype =>
    dataLabel_nil dtype k ▸ hs.chained.fresh hk
  have hne : dataLabel "c_string".toList [] s.1.valueLabel ≠
      dataLabel Proto.symbol.text [] (s.1.valueLabel + 1) := by
    rw [dataLabel_nil, dataLabel_nil]
    intro heq
    have := (numbered_injective heq).2
    omega
  change SymbolOf (s.2.dataField ++ [_] ++ [_]) _ _
  rw [List.append_assoc]
  refine ⟨dataLabel "c_string".toList [] s.1.valueLabel, ?_, ?_⟩
  · rw [declOf_append_of_fresh (hfresh _ (by omega) _), List.singleton_append, declOf_cons]
    refine (if_neg hne).trans ?_
    rw [declOf_cons]
    exact if_pos rfl
  · rw [declOf_append_of_fresh (hfresh _ (Nat.le_refl _) _), List.singleton_append, declOf_cons]
    exact if_pos rfl

theorem declared_symbol {name : Text} (hs : Declared s)
    (hnew : s.1.symbolTab.lookup (.sym name) = none) : Declared (symbolState name s) where
  chained := chained_string hs.chained .symbol name
  tab name' l := by
    have hsymbol := symbolOf_new hs name
    -- a constant of the new state is an old one or the new one
    have hcases : SymbolOf (symbolState name s).2.dataField l name' →
        s.1.symbolTab.lookup (.sym name') = some l ∨
          l = dataLabel Proto.symbol.text [] (s.1.valueLabel + 1) := by
      intro hl
      change SymbolOf (s.2.dataField ++ [_] ++ [_]) _ _ at hl
      rw [List.append_assoc] at hl
      by_cases hmem : l ∈ s.2.dataField.map Decl.label
      · exact .inl ((hs.tab name' l).mpr ((hs.chained.symbolOf_append hmem).mp hl))
      · obtain ⟨sl, hdecl, -⟩ := hl
        rw [declOf_append_of_fresh hmem] at hdecl
        obtain ⟨hdecl, -⟩ := declOf_eq_some hdecl
        simp only [List.singleton_append, List.mem_cons, List.not_mem_nil, or_false, reduceCtorEq,
          false_or, Decl.const.injEq] at hdecl
        exact .inr hdecl.2.1
    have hold : s.1.symbolTab.lookup (.sym name') = some l →
        SymbolOf (symbolState name s).2.dataField l name' := by
      intro hl
      change SymbolOf (s.2.dataField ++ [_] ++ [_]) _ _
      exact ((hs.tab name' l).mp hl).append.append
    change List.lookup _ (_ :: s.1.symbolTab) = _ ↔ _
    rw [List.lookup_cons]
    by_cases hname : name' = name
    · subst hname
      rw [beq_self_eq_true]
      constructor
      · rintro ⟨⟩
        exact hsymbol
      · intro hl
        rcases hcases hl with hl | rfl
        · rw [hnew] at hl
          cases hl
        · rfl
    · rw [beq_false_of_ne fun h => hname (Sym.sym.inj h)]
      refine ⟨hold, fun hl => ?_⟩
      rcases hcases hl with h | rfl
      · exact h
      · exact absurd (hl.unique hsymbol) hname

/-- A pair of what is declared. -/
theorem declared_pair {car cdr : ObjExpr} (hs : Declared s)
    (hcar : ∀ l ∈ car.refs, l ∈ s.2.dataField.map Decl.label)
    (hcdr : ∀ l ∈ cdr.refs, l ∈ s.2.dataField.map Decl.label)
    (hrun : (addConstData .pair [] [.obj car, .obj cdr]).run s = (some (l, t), w)) :
    Declared t ∧ s.2.dataField <+: t.2.dataField ∧ declOf t.2.dataField l =
      some (.const .pair l [.obj car, .obj cdr]) := by
  rw [addConstData_run] at hrun
  cases hrun
  refine ⟨⟨hs.chained.add (dataLabel_nil _ _) ?_, fun name l => ?_⟩, List.prefix_append .., ?_⟩
  · intro l hl
    obtain ⟨field, hfield, hl⟩ := List.mem_flatMap.mp hl
    rcases List.mem_cons.mp hfield with rfl | hfield
    · exact hcar l hl
    · obtain rfl := List.mem_singleton.mp hfield
      exact hcdr l hl
  · exact (hs.tab name l).trans (hs.chained.symbolOf_append_plain (by simp)).symm
  · rw [declOf_append_of_fresh (dataLabel_nil _ _ ▸ hs.chained.fresh (Nat.le_refl _)), declOf_cons]
    exact if_pos rfl

/-- What `createConsts` does for `d`: it grows the data field, and returns an expression whose
labels are declared and which it may note for `d`. -/
def Creates (d : Datum) (s : CompileTimeState) (w : List Event) (e : ObjExpr)
    (t : CompileTimeState) :
    Prop :=
  Grows s w t ∧ (Declared s → (∀ l ∈ e.refs, l ∈ t.2.dataField.map Decl.label) ∧
    ConstOf t.2.dataField d e)

/-- An expression without labels. -/
theorem creates_atom (hrefs : e.refs = []) (hsym : ∀ name, d ≠ .symbol (.sym name))
    (hden : Quotable d → ∃ o, meaning d = some o ∧ Denotes s.2.dataField e o) :
    Creates d s [] e s :=
  ⟨.refl s, fun _ => ⟨hrefs ▸ nofun, hden, fun name hd => absurd hd (hsym name)⟩⟩

theorem creates_symbol (h : (do
      let ctd ← getCTD
      match ctd.symbolTab.lookup (.sym name) with
      | some label => pure (.label label)
      | none => do
        let cvar ← addString .symbol name
        putSymbolTab ((.sym name, cvar) :: ctd.symbolTab)
        return .label cvar : ConvM ObjExpr).run s = (some (e, t), w)) :
    Creates (.symbol (.sym name)) s w e t := by
  -- the constant of the symbol is declared in the end
  have hden : ∀ {data l}, SymbolOf data l name →
      (∀ l' ∈ (ObjExpr.label l).refs, l' ∈ data.map Decl.label) ∧
        ConstOf data (.symbol (.sym name)) (.label l) := by
    intro data l hl
    refine ⟨fun l' hl' => ?_, fun hq => ⟨.symbol name, rfl, .symbol (hl.textConst hq)⟩, ?_⟩
    · obtain ⟨sl, hdecl, -⟩ := hl
      obtain ⟨hmem, hlabel⟩ := declOf_eq_some hdecl
      exact List.mem_map.mpr ⟨_, hmem, hlabel.trans (List.mem_singleton.mp hl').symm⟩
    · rintro name' ⟨⟩
      exact ⟨l, rfl, hl⟩
  have hfirst : (match s.1.symbolTab.lookup (.sym name) with
      | some label => pure (.label label)
      | none => do
        let cvar ← addString .symbol name
        putSymbolTab ((.sym name, cvar) :: s.1.symbolTab)
        return .label cvar : ConvM ObjExpr).run s = (some (e, t), w) := h
  cases htab : s.1.symbolTab.lookup (.sym name) with
  | some label =>
    rw [htab] at hfirst
    cases hfirst
    exact ⟨.refl s, fun hs => hden ((hs.tab name label).mp htab)⟩
  | none =>
    rw [htab] at hfirst
    have hrun : (do
        let cvar ← addString .symbol name
        putSymbolTab ((.sym name, cvar) :: s.1.symbolTab)
        return .label cvar : ConvM ObjExpr).run s =
          (some (.label (dataLabel Proto.symbol.text [] (s.1.valueLabel + 1)), symbolState name s),
          [.dataLabel (dataLabel "c_string".toList [] s.1.valueLabel),
            .dataLabel (dataLabel Proto.symbol.text [] (s.1.valueLabel + 1))]) := rfl
    rw [hrun] at hfirst
    cases hfirst
    refine ⟨.of_quiet (fun hs => ⟨declared_symbol hs htab, ?_⟩) (by simp [Event.GivesLabel]),
      fun hs => hden (symbolOf_new hs name)⟩
    change s.2.dataField <+: s.2.dataField ++ [_] ++ [_]
    rw [List.append_assoc]
    exact List.prefix_append ..

theorem creates_string {cs : List Char} (h : (do
      let cvar ← addString .string cs
      return .label cvar : ConvM ObjExpr).run s = (some (e, t), w)) :
    Creates (.string cs) s w e t := by
  have hrun : (do
      let cvar ← addString .string cs
      return .label cvar : ConvM ObjExpr).run s =
        (some (.label (dataLabel Proto.string.text [] (s.1.valueLabel + 1)),
          stringState .string cs s),
        [.dataLabel (dataLabel "c_string".toList [] s.1.valueLabel),
          .dataLabel (dataLabel Proto.string.text [] (s.1.valueLabel + 1))]) := rfl
  rw [hrun] at h
  cases h
  refine ⟨.of_quiet (fun hs => ⟨declared_string cs hs, ?_⟩) (by simp [Event.GivesLabel]),
    fun hs => ⟨fun l hl => ?_, ?_⟩⟩
  · change s.2.dataField <+: s.2.dataField ++ [_] ++ [_]
    rw [List.append_assoc]
    exact List.prefix_append ..
  · rw [List.mem_singleton.mp hl]
    change _ ∈ (s.2.dataField ++ [_] ++ [_]).map Decl.label
    rw [List.map_append]
    exact List.mem_append_right _ List.mem_cons_self
  · exact ⟨False.elim, nofun⟩

/-- A list is what `listToSExp` makes of it. -/
theorem creates_list (hsym : ∀ name, d ≠ .symbol (.sym name))
    (ih : ∀ {d'}, (CFile.createConsts fuel d').run s = (some (e, t), w) → Creates d' s w e t)
    (h : (Traced.ofOption (listToSExp d) >>= CFile.createConsts fuel).run s = (some (e, t), w)) :
    Creates d s w e t := by
  cases hd : listToSExp d with
  | none =>
    rw [hd] at h
    cases h
  | some d' =>
    rw [hd] at h
    obtain ⟨hgrows, hnoted⟩ := @ih d' h
    obtain ⟨hm, hq⟩ := meaning_listToSExp d hd
    refine ⟨hgrows, fun hs => ⟨(hnoted hs).1, fun hquot => ?_,
      fun name heq => absurd heq (hsym name)⟩⟩
    rw [← hm]
    exact (hnoted hs).2.1 (hq hquot)

theorem creates_pair {car cdr : Datum}
    (ih : ∀ {d s e t w}, (CFile.createConsts fuel d).run s = (some (e, t), w) → Creates d s w e t)
    (h : (do
      let carVar ← CFile.createConsts fuel car
      let cdrVar ← CFile.createConsts fuel cdr
      let label ← addConstData .pair [] [.obj carVar, .obj cdrVar]
      return .label label : ConvM ObjExpr).run s = (some (e, t), w)) :
    Creates (.sExp [car] cdr) s w e t := by
  obtain ⟨carVar, u₁, w₁, w₂, hcar, h₂, rfl⟩ := Traced.run_bind_eq_some.mp h
  obtain ⟨cdrVar, u₂, w₃, w₄, hcdr, h₃, rfl⟩ := Traced.run_bind_eq_some.mp h₂
  obtain ⟨l, u₃, w₅, w₆, hpair, hend, rfl⟩ := Traced.run_bind_eq_some.mp h₃
  cases hend
  obtain ⟨hgrows₁, hnoted₁⟩ := ih hcar
  obtain ⟨hgrows₂, hnoted₂⟩ := ih hcdr
  have hquiet : ∀ ev ∈ w₅, ev.GivesLabel := by
    rw [addConstData_run] at hpair
    cases hpair
    simp [Event.GivesLabel]
  -- the two parts are declared when the pair is
  have hparts : Declared s → Declared u₂ ∧
      (∀ l ∈ carVar.refs, l ∈ u₂.2.dataField.map Decl.label) ∧
      (∀ l ∈ cdrVar.refs, l ∈ u₂.2.dataField.map Decl.label) := by
    intro hs
    obtain ⟨hu₁, -, -⟩ := hgrows₁ hs
    obtain ⟨hu₂, ⟨new, hnew⟩, -⟩ := hgrows₂ hu₁
    refine ⟨hu₂, fun l hl => ?_, (hnoted₂ hu₁).1⟩
    rw [← hnew, List.map_append]
    exact List.mem_append_left _ ((hnoted₁ hs).1 l hl)
  have hgrows₃ : Declared s → Grows u₂ (w₅ ++ []) t := fun hs => by
    rw [List.append_nil]
    obtain ⟨hu₂, hcarRefs, hcdrRefs⟩ := hparts hs
    obtain ⟨ht, hprefix, -⟩ := declared_pair hu₂ hcarRefs hcdrRefs hpair
    exact .of_quiet (fun _ => ⟨ht, hprefix⟩) hquiet
  refine ⟨fun hs => hgrows₁.trans (hgrows₂.trans (hgrows₃ hs)) hs, fun hs => ?_⟩
  obtain ⟨hu₂, hcarRefs, hcdrRefs⟩ := hparts hs
  obtain ⟨ht, ⟨new, hnew⟩, hdecl⟩ := declared_pair hu₂ hcarRefs hcdrRefs hpair
  obtain ⟨hu₁, -, -⟩ := hgrows₁ hs
  obtain ⟨-, ⟨new', hnew'⟩, -⟩ := hgrows₂ hu₁
  refine ⟨fun l' hl' => ?_, fun hq => ?_, nofun⟩
  · obtain ⟨hmem, hlabel⟩ := declOf_eq_some hdecl
    exact List.mem_map.mpr ⟨_, hmem, hlabel.trans (List.mem_singleton.mp hl').symm⟩
  · obtain ⟨a, ha, hdena⟩ := (hnoted₁ hs).2.1 hq.2.1.1
    obtain ⟨b, hb, hdenb⟩ := (hnoted₂ hu₁).2.1 hq.2.2
    refine ⟨.pair a b, by rw [meaning_pair, ha, hb]; rfl, .pair hdecl ?_ ?_⟩
    · rw [← hnew, ← hnew']
      exact hdena.append.append
    · rw [← hnew]
      exact hdenb.append

theorem Creates.noted (h : Creates d s w e t) : Creates d s (w ++ [.const d e]) e t :=
  ⟨h.1.note fun hs => (h.2 hs).2, h.2⟩

/-- **A constant denotes its datum**, in every state that is declared. -/
theorem createConsts_creates (h : (CFile.createConsts fuel d).run s = (some (e, t), w)) :
    Creates d s w e t := by
  induction fuel generalizing d s e t w with
  | zero => cases h
  | succ fuel ih =>
    obtain ⟨w', hx, rfl⟩ := noted_run h
    refine Creates.noted ?_
    cases d with
    | void =>
      cases hx
      exact creates_atom rfl nofun nofun
    | boolean b =>
      cases hx
      exact creates_atom rfl nofun fun _ => ⟨_, rfl, .bool b⟩
    | number v =>
      cases hx
      refine creates_atom rfl nofun fun hv => ⟨_, rfl, ?_⟩
      have hint : Denotes s.2.dataField (.int v) _ := .int v
      rwa [schemeObjToInt_intToObj, bmod_eq_iff_tagged.mpr hv] at hint
    | character c =>
      cases hx
      refine creates_atom rfl nofun fun hc => ⟨_, rfl, .ascii (cChar_showChar hc.1 hc.2) ?_⟩
      exact lt_of_le_of_lt (UInt32.le_iff_toNat_le.mp hc.2) (by decide)
    | string cs => exact creates_string hx
    | symbol x =>
      cases x with
      | nil => cases hx
      | sym name => exact creates_symbol hx
    | sExp ds last =>
      match ds with
      | [] => exact creates_list nofun ih hx
      | [car] => exact creates_pair ih hx
      | car :: d₂ :: ds => exact creates_list nofun ih hx
    | list ds =>
      cases ds with
      | nil =>
        cases hx
        exact creates_atom rfl nofun fun _ => ⟨_, rfl, .null⟩
      | cons d ds => exact creates_list nofun ih hx
    | «abbrev» p d => exact creates_list nofun ih hx
    | vector ds => exact creates_list nofun ih hx

/-! ## Programs -/

/-- The environment does not matter for the declarations. -/
theorem declared_bodyState {args : List Sym} {body : List Code} (hs : Declared s) :
    Declared (bodyState args body s) := ⟨hs.chained, hs.tab⟩

theorem grows_closureState (env : CompileTimeEnvt) (name : Text) (code : List Text)
    (s : CompileTimeState) : Grows s (closureLabels name s) (closureState env name code s) := by
  refine .of_quiet (fun hs => ⟨⟨?_, fun name' l => ?_⟩, ?_⟩)
    (by simp [closureLabels, Event.GivesLabel])
  · have hfirst : Decl.label (.template (dataLabel name [] s.1.valueLabel)
        (funcLabel name s.1.funcLabel)) = _ := dataLabel_nil _ _
    refine (hs.chained.add hfirst nofun).add (dataLabel_closure _ _ _) fun l hl => ?_
    have hlabel : l = dataLabel name [] s.1.valueLabel := List.mem_singleton.mp hl
    rw [hlabel, List.map_append]
    exact List.mem_append_right _ List.mem_cons_self
  · refine (hs.tab name' l).trans (Iff.symm ?_)
    change SymbolOf (s.2.dataField ++ [_] ++ [_]) l name' ↔ _
    rw [List.append_assoc]
    exact hs.chained.symbolOf_append_plain (by simp)
  · change s.2.dataField <+: s.2.dataField ++ [_] ++ [_]
    rw [List.append_assoc]
    exact List.prefix_append ..

theorem grows_line {i : Code} (h : (do
      let env ← getEnvt
      .ofOption (line env i) : ConvM (List Text)).run s = (some (out, t), w)) : Grows s w t := by
  obtain ⟨-, rfl, rfl⟩ := line_run h
  exact .refl t

/-- The code of a constant loads an expression for it. -/
theorem denoted_instr {i : Code} {env : CompileTimeEnvt} (hs : Declared s)
    (h : (CFile.instr2c fuel i).run s = (some (out, t), w)) :
    (Event.instr i env out).Denoted t.2.dataField := by
  cases i with
  | fetchConst d =>
    obtain ⟨e, he, hout⟩ := fetchConst_run h
    exact ⟨e, hout, ((createConsts_creates he).2 hs).2⟩
  | _ => trivial

mutual

/-- **Every run grows** the data field. -/
theorem grows_convSequence : (c : List Code) → {s t : CompileTimeState} → {w : List Event} →
    {out : List Text} → (CFile.convSequence fuel c).run s = (some (out, t), w) → Grows s w t
  | [], _, _, _, _, h => by
    cases h
    exact .refl _
  | i :: c, s, _, _, _, h => by
    obtain ⟨_, u, _, _, _, hi, hc, -, rfl⟩ := convSequence_cons_run.mp h
    have hfirst : Grows s (_ ++ [.instr i s.1.envt _]) u :=
      (grows_instr2c i hi).note fun hs => denoted_instr hs hi
    rw [List.append_cons]
    exact hfirst.trans (grows_convSequence c hc)

theorem grows_instr2c : (i : Code) → {s t : CompileTimeState} → {w : List Event} →
    {out : List Text} → (CFile.instr2c fuel i).run s = (some (out, t), w) → Grows s w t
  | .fetchConst d, _, _, _, _, h => by
    obtain ⟨e, he, -⟩ := fetchConst_run h
    exact (createConsts_creates he).1
  | .ifTrue con alt, _, _, _, _, h => by
    obtain ⟨_, u, _, _, _, hcon, halt, rfl⟩ := branches_run h
    exact (grows_convSequence con hcon).trans (grows_convSequence alt halt)
  | .ifFalse con alt, _, _, _, _, h => by
    obtain ⟨_, u, _, _, _, hcon, halt, rfl⟩ := branches_run h
    exact (grows_convSequence con hcon).trans (grows_convSequence alt halt)
  | .makeClosure (.sym name) (.args args) body, s, _, _, _, h => by
    obtain ⟨code, u, w₁, hbody, rfl, rfl⟩ := makeClosure_run h
    have hbodyGrows : Grows (bodyState args body s) w₁ u := grows_convSequence body hbody
    have hinner : Grows s w₁ u := fun hs => hbodyGrows (declared_bodyState hs)
    exact hinner.trans (grows_closureState _ name code u)
  | .makeClosure .nil _ _, _, _, _, _, h => nomatch (line_run h).1
  | .makeClosure (.sym _) (.args2 _ _) _, _, _, _, _, h => nomatch (line_run h).1
  | .lookupVar _, _, _, _, _, h => grows_line h
  | .label _, _, _, _, _, h => grows_line h
  | .newBind _, _, _, _, _, h => grows_line h
  | .reBind _, _, _, _, _, h => grows_line h
  | .leaveProc, _, _, _, _, h => grows_line h
  | .apply, _, _, _, _, h => grows_line h
  | .callBuiltin _ _, _, _, _, _, h => grows_line h
  | .pushCont _, _, _, _, _, h => grows_line h
  | .push, _, _, _, _, h => grows_line h
  | .moveSp _, _, _, _, _, h => grows_line h
  | .accStack _, _, _, _, _, h => grows_line h
  | .goto _, _, _, _, _, h => grows_line h
  | .blankLn, _, _, _, _, h => grows_line h
  | .nop, _, _, _, _, h => grows_line h

end

end SchemeOs.Compiler
