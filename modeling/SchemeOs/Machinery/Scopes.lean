import Mathlib.Data.List.Basic
import Mathlib.Logic.Function.Basic
import Mathlib.Tactic.SplitIfs

/-!
# Machinery/Scopes — lexical environments as chains of finite maps

A scope maps names to values and sits inside other scopes.  A store `Scopes K V` numbers the scopes
in the order of their creation; `lookup` finds the value of a name in the innermost scope, of a
scope and those around it, that binds the name.  `extend` makes a new innermost scope and `define`
binds a name in one scope, and neither touches any other scope.
-/

namespace SchemeOs

variable {K V : Type*}

/-- A scope: what it binds, and the scopes around it, innermost first. -/
structure Scope (K V : Type*) where
  vars : K → Option V
  outer : List ℕ

/-- All scopes made so far, in the order of their creation. -/
structure Scopes (K V : Type*) where
  scopes : List (Scope K V)

namespace Scopes

variable {σ : Scopes K V} {i j : ℕ} {x y : K} {v : V} {vars : K → Option V}

/-- The number of scopes. -/
def size (σ : Scopes K V) : ℕ := σ.scopes.length

/-- What the scope `i` itself binds `x` to. -/
def here (σ : Scopes K V) (i : ℕ) (x : K) : Option V := (σ.scopes[i]?).bind fun s => s.vars x

/-- The scope `i` and the scopes around it, innermost first. -/
def chain (σ : Scopes K V) (i : ℕ) : List ℕ := i :: ((σ.scopes[i]?).map Scope.outer).getD []

/-- The value of `x` in the innermost scope of the chain of `i` that binds it. -/
def lookup (σ : Scopes K V) (i : ℕ) (x : K) : Option V := (σ.chain i).findSome? fun j => σ.here j x

/-- A new scope inside `i`, which binds what `vars` says. -/
def extend (σ : Scopes K V) (i : ℕ) (vars : K → Option V) : Scopes K V :=
  ⟨σ.scopes ++ [⟨vars, σ.chain i⟩]⟩

/-- Bind `x` to `v` in the scope `i`. -/
def define [DecidableEq K] (σ : Scopes K V) (i : ℕ) (x : K) (v : V) : Scopes K V :=
  ⟨σ.scopes.modify i fun s => { s with vars := Function.update s.vars x (some v) }⟩

/-- Every scope lies in scopes made before it. -/
def WellScoped (σ : Scopes K V) : Prop := ∀ i < σ.size, ∀ j ∈ σ.chain i, j < σ.size

/-- Lookup in a chain depends only on what the scopes of the chain bind. -/
theorem findSome?_congr {σ τ : Scopes K V} {c : List ℕ} (h : ∀ j ∈ c, σ.here j x = τ.here j x) :
    (c.findSome? fun j => σ.here j x) = c.findSome? fun j => τ.here j x := by
  induction c with
  | nil => rfl
  | cons j c ih =>
    rw [List.findSome?_cons, List.findSome?_cons, h j List.mem_cons_self,
      ih fun k hk => h k (List.mem_cons_of_mem _ hk)]

/-- An outermost scope sees what it binds. -/
theorem lookup_outermost (h : σ.chain i = [i]) : σ.lookup i x = σ.here i x := by
  rw [lookup, h, List.findSome?_cons, List.findSome?_nil]
  cases σ.here i x <;> rfl

/-- A scope sees what it binds, and around that what the scope outside it sees. -/
theorem lookup_inside (h : σ.chain i = i :: σ.chain j) :
    σ.lookup i x = (σ.here i x).or (σ.lookup j x) := by
  rw [lookup, h, List.findSome?_cons, lookup]
  cases σ.here i x <;> rfl

/-- Stores whose scopes nest alike and bind related values look related values up. -/
theorem lookup_rel {W : Type*} {τ : Scopes K W} {R : V → W → Prop}
    (hchain : τ.chain i = σ.chain i) (h : ∀ j, Option.Rel R (σ.here j x) (τ.here j x)) :
    Option.Rel R (σ.lookup i x) (τ.lookup i x) := by
  rw [lookup, lookup, hchain]
  generalize σ.chain i = c
  induction c with
  | nil => exact Option.Rel.none
  | cons j c ih =>
    rw [List.findSome?_cons, List.findSome?_cons]
    have hj := h j
    generalize σ.here j x = a at hj
    generalize τ.here j x = b at hj
    cases hj with
    | none => exact ih
    | some hr => exact Option.Rel.some hr

/-! ## Defining a name

What is seen afterwards, from the scope itself and from the others. -/

section Define

variable [DecidableEq K]

@[simp] theorem size_define : (σ.define i x v).size = σ.size := by simp [define, size]

@[simp] theorem chain_define : (σ.define i x v).chain j = σ.chain j := by
  unfold chain define
  dsimp only
  rw [List.getElem?_modify]
  split_ifs <;> cases σ.scopes[j]? <;> rfl

theorem here_define (hi : i < σ.size) :
    (σ.define i x v).here j y = if j = i ∧ y = x then some v else σ.here j y := by
  unfold here define
  dsimp only
  rw [List.getElem?_modify]
  by_cases hji : i = j
  · subst hji
    rw [List.getElem?_eq_getElem hi]
    by_cases hyx : y = x
    · subst hyx; simp
    · simp [hyx]
  · simp [hji, Ne.symm hji]

/-- Defining a name in a scope changes nothing else, in that scope or any other. -/
theorem here_define_of_ne (hne : j ≠ i ∨ y ≠ x) : (σ.define i x v).here j y = σ.here j y := by
  by_cases hi : i < σ.size
  · rw [here_define hi, if_neg]
    rintro ⟨rfl, rfl⟩
    simp at hne
  · rw [define, List.modify_eq_self (Nat.le_of_not_lt hi)]

/-- A name just defined in a scope has the new value there. -/
theorem lookup_define_self (hi : i < σ.size) : (σ.define i x v).lookup i x = some v := by
  rw [lookup, chain_define, chain, List.findSome?_cons, here_define hi]
  simp

/-- Defining a name leaves the value of every other name as it was, seen from any scope. -/
theorem lookup_define_of_ne (hyx : y ≠ x) : (σ.define i x v).lookup j y = σ.lookup j y := by
  rw [lookup, chain_define]
  exact findSome?_congr fun k _ => here_define_of_ne (Or.inr hyx)

/-- Defining a name in a scope is seen only from the scopes inside it. -/
theorem lookup_define_of_notMem (hij : i ∉ σ.chain j) :
    (σ.define i x v).lookup j y = σ.lookup j y := by
  rw [lookup, chain_define]
  refine findSome?_congr fun k hk => here_define_of_ne (Or.inl ?_)
  rintro rfl
  exact hij hk

theorem WellScoped.define (hw : σ.WellScoped) : (σ.define i x v).WellScoped := by
  intro j hj k hk
  rw [size_define] at hj ⊢
  rw [chain_define] at hk
  exact hw j hj k hk

end Define

/-! ## Making a scope -/

@[simp] theorem size_extend : (σ.extend i vars).size = σ.size + 1 := by simp [extend, size]

theorem scopes_extend :
    (σ.extend i vars).scopes[j]? = if j = σ.size then some ⟨vars, σ.chain i⟩ else σ.scopes[j]? := by
  unfold extend size
  split_ifs with h
  · simp [h]
  · rcases Nat.lt_or_gt_of_ne h with hlt | hlt
    · exact List.getElem?_append_left hlt
    · rw [List.getElem?_eq_none (by rw [List.length_append, List.length_singleton]; omega),
        List.getElem?_eq_none (by omega)]

theorem here_extend :
    (σ.extend i vars).here j x = if j = σ.size then vars x else σ.here j x := by
  unfold here
  rw [scopes_extend]
  split_ifs <;> rfl

theorem chain_extend :
    (σ.extend i vars).chain j = if j = σ.size then j :: σ.chain i else σ.chain j := by
  unfold chain
  rw [scopes_extend]
  split_ifs <;> rfl

/-- Making a scope leaves all others as they were. -/
theorem here_extend_of_lt (hj : j < σ.size) : (σ.extend i vars).here j x = σ.here j x := by
  rw [here_extend, if_neg (Nat.ne_of_lt hj)]

theorem here_extend_new : (σ.extend i vars).here σ.size x = vars x := by
  rw [here_extend, if_pos rfl]

theorem chain_extend_of_lt (hj : j < σ.size) : (σ.extend i vars).chain j = σ.chain j := by
  rw [chain_extend, if_neg (Nat.ne_of_lt hj)]

theorem chain_extend_new : (σ.extend i vars).chain σ.size = σ.size :: σ.chain i := by
  rw [chain_extend, if_pos rfl]

/-- The scopes made before see what they saw. -/
theorem lookup_extend_of_lt (hw : σ.WellScoped) (hj : j < σ.size) :
    (σ.extend i vars).lookup j x = σ.lookup j x := by
  rw [lookup, chain_extend_of_lt hj]
  exact findSome?_congr fun k hk => here_extend_of_lt (hw j hj k hk)

/-- The new scope sees what it binds, and around that what the scope outside it sees. -/
theorem lookup_extend_new (hw : σ.WellScoped) (hi : i < σ.size) :
    (σ.extend i vars).lookup σ.size x = (vars x).or (σ.lookup i x) := by
  rw [lookup_inside (j := i) (by rw [chain_extend_new, chain_extend_of_lt hi]), here_extend_new,
    lookup_extend_of_lt hw hi]

theorem WellScoped.extend (hw : σ.WellScoped) (hi : i < σ.size) : (σ.extend i vars).WellScoped := by
  intro j hj k hk
  rw [size_extend] at hj ⊢
  rcases Nat.lt_succ_iff_lt_or_eq.mp hj with hlt | rfl
  · rw [chain_extend_of_lt hlt] at hk
    have := hw j hlt k hk
    omega
  · rw [chain_extend_new] at hk
    rcases List.mem_cons.mp hk with rfl | hk
    · exact Nat.lt_succ_self _
    · have := hw i hi k hk
      omega

end Scopes

end SchemeOs
