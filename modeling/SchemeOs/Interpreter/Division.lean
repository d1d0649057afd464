import Mathlib.Data.Int.Notation
import SchemeOs.Interpreter.ArgumentVectors

/-!
# Interpreter/Division — the quotient of integers

`(/ a1 ... an)` divides the first argument by the others, one after the other, in a new object.  The
machine cannot divide by zero, and not the least `int` by -1; the code does not ask, and the
division is not an error value but a trap.
-/

namespace SchemeOs

open Traced Builtins

variable {ext : Callees} {m : Memory} {argv : ℕ → Ptr} {p : Ptr} {a b q : ℤ} {bs vals : List ℤ}
  {k n : ℕ}

/-! ## Quotients

The `div` of the processor stops at a divisor that is zero, and at the one quotient that overflows.
-/

/-- The quotient of two `int`s, where the machine has one. -/
def div? (a b : ℤ) : Option ℤ := if b = 0 ∨ a = -2 ^ 31 ∧ b = -1 then none else some (a.tdiv b)

/-- One number divided by others, one after the other. -/
def divAll? (a : ℤ) : List ℤ → Option ℤ
  | [] => some a
  | b :: bs => div? a b >>= fun q => divAll? q bs

/-- The quotient of the arguments, and of 1 by a single one. -/
def quotient? : List ℤ → Option ℤ
  | [] => none
  | [a] => divAll? 1 [a]
  | a :: bs => divAll? a bs

/-- None of the divisions is one that the machine cannot do: a single argument is not 0, and of
several none but the first is 0; if the first one is the least `int`, then the first of the others
that is not 1 is not -1. -/
def Divisible : List ℤ → Prop
  | [] => True
  | [a] => a ≠ 0
  | a :: bs => 0 ∉ bs ∧ ¬(a = -2 ^ 31 ∧ (bs.dropWhile (· = 1)).head? = some (-1))

/-- Only the least `int` divided by 1 has a quotient of its size. -/
theorem eq_least_of_natAbs (ha : IsInt a) (hb : b ≠ 0) (hab : ¬(a = -2 ^ 31 ∧ b = -1))
    (h : (a.tdiv b).natAbs = 2 ^ 31) : a = -2 ^ 31 ∧ b = 1 := by
  have hdiv : a.natAbs / b.natAbs = 2 ^ 31 := by
    rw [← h, Int.natAbs_tdiv]
    rfl
  have hpos : 0 < b.natAbs := Int.natAbs_pos.mpr hb
  have hmul : 2 ^ 31 * b.natAbs ≤ a.natAbs := hdiv ▸ Nat.div_mul_le_self ..
  unfold IsInt at ha
  omega

/-- Only the least `int` divided by 1 gives the least `int`. -/
theorem tdiv_eq_least (ha : IsInt a) (hb : b ≠ 0) (hab : ¬(a = -2 ^ 31 ∧ b = -1)) :
    a.tdiv b = -2 ^ 31 ↔ a = -2 ^ 31 ∧ b = 1 := by
  constructor
  · intro h
    exact eq_least_of_natAbs ha hb hab (by rw [h]; rfl)
  · rintro ⟨rfl, rfl⟩
    exact Int.tdiv_one _

theorem isInt_tdiv (ha : IsInt a) (hb : b ≠ 0) (hab : ¬(a = -2 ^ 31 ∧ b = -1)) :
    IsInt (a.tdiv b) := by
  have hle := Int.natAbs_tdiv_le_natAbs a b
  have hlast : (a.tdiv b).natAbs = 2 ^ 31 → a.tdiv b = -2 ^ 31 := fun h =>
    (tdiv_eq_least ha hb hab).mpr (eq_least_of_natAbs ha hb hab h)
  unfold IsInt at ha ⊢
  omega

/-- **Where a division is missing** among several. -/
theorem divAll?_eq_none (ha : IsInt a) : divAll? a bs = none ↔
    0 ∈ bs ∨ a = -2 ^ 31 ∧ (bs.dropWhile (· = 1)).head? = some (-1) := by
  induction bs generalizing a with
  | nil => simp [divAll?]
  | cons b bs ih =>
    by_cases hb : b = 0
    · simp [divAll?, div?, hb]
    · by_cases hab : a = -2 ^ 31 ∧ b = -1
      · obtain ⟨rfl, rfl⟩ := hab
        simp [divAll?, div?]
      · have hdiv : div? a b = some (a.tdiv b) := if_neg (not_or.mpr ⟨hb, hab⟩)
        rw [divAll?, hdiv, Option.bind_eq_bind, Option.bind_some, ih (isInt_tdiv ha hb hab),
          tdiv_eq_least ha hb hab, List.mem_cons]
        by_cases hone : b = 1
        · subst hone
          simp
        · have hhead : ((b :: bs).dropWhile (· = 1)).head? = some b := by simp [hone]
          rw [hhead, Option.some_inj, or_iff_left hab, or_iff_right (Ne.symm hb)]
          exact or_iff_left fun h => hone h.1.2

/-- **The arguments that have a quotient.** -/
theorem quotient?_ne_none (hne : vals ≠ []) (hint : ∀ a ∈ vals, IsInt a) :
    quotient? vals ≠ none ↔ Divisible vals := by
  rcases vals with _ | ⟨a, _ | ⟨b, bs⟩⟩
  · exact absurd rfl hne
  · have hone : IsInt 1 := ⟨by decide, by decide⟩
    rw [quotient?, Ne, divAll?_eq_none hone]
    simp [Divisible, eq_comm]
  · rw [quotient?, Ne, divAll?_eq_none (hint a (.head _)), not_or]
    · rfl
    · nofun

/-! ## The primitive -/

/-- `p` is an integer object. -/
def HoldsInt (m : Memory) (p : Ptr) (a : ℤ) : Prop :=
  m.heap.obj? p = some ⟨.integer, .int a⟩

/-- `/` returns the quotient in a new object, or `scheme_void` where there is none, and leaves the
objects that there were. -/
def Divides (ext : Callees) (m : Memory) (argv : ℕ → Ptr) (vals : List ℤ) : Prop :=
  ∀ n, match quotient? vals with
    | some q => (divison ext n vals.length argv).result.run m =
        some (m.fresh, m.push ⟨.integer, .int q⟩)
    | none => ∃ m', (divison ext n vals.length argv).result.run m = some (schemeVoid, m') ∧
        m.heap.Sub m'.heap

theorem run_schemeIntVal (h : HoldsInt m p a) : (schemeIntVal p).run m = some (a, m) := by
  have hobj : (schemeObj p).run m = some (⟨.integer, .int a⟩, m) := run_readMem h
  rw [schemeIntVal, run_bind_of_run hobj]
  rfl

/-- Assigning to the new object. -/
theorem run_schemeAssign_fresh (o o' : Obj) :
    (schemeAssign m.fresh o').run (m.push o) = some ((), m.push o') := by
  have hlist (l : List Obj) : (l ++ [o]).modify l.length (fun _ => o') = l ++ [o'] := by
    induction l with
    | nil => rfl
    | cons x l ih => exact congrArg (x :: ·) ih
  have hpush : (m.push o).modify m.fresh (fun _ => o') = m.push o' :=
    congrArg (fun l => { m with objs := l }) (hlist m.objs)
  simp [schemeAssign, StateT.run, hpush]

theorem run_intOp_div (a b : ℤ) (m : Memory) :
    (intOp '/' a b).run m = (div? a b).map fun q => (q, m) := by
  unfold intOp div?
  rw [if_neg (by decide), if_neg (by decide), if_neg (by decide)]
  split_ifs <;> rfl

/-- **One step of the loop**: the new object is divided. -/
theorem run_binaryOp_div (hp : HoldsInt m p b) :
    (binaryOp ext '/' m.fresh p).run (m.push ⟨.integer, .int a⟩) =
      (div? a b).map fun q => ((), m.push ⟨.integer, .int q⟩) := by
  have hnew : HoldsInt (m.push ⟨.integer, .int a⟩) m.fresh a := Memory.obj?_push_fresh
  have hold : HoldsInt (m.push ⟨.integer, .int a⟩) p b := Memory.heap_push p _ hp
  rw [binaryOp, run_bind_of_run (run_schemeType (Heap.type?_of_obj? hnew)),
    run_bind_of_run (run_schemeType (Heap.type?_of_obj? hold)), if_neg (by simp), if_pos rfl,
    run_bind_of_run (run_schemeIntVal hnew), run_bind_of_run (run_schemeIntVal hold),
    StateT.run_bind, run_intOp_div]
  cases div? a b with
  | none => rfl
  | some q => exact run_schemeAssign_fresh ..

/-- **The loop** from the `k`-th argument on. -/
theorem run_fold_div (bs : List ℤ)
    (hargs : ∀ i b, bs[i]? = some b → HoldsInt m (argv (k + i)) b) :
    (fold ext '/' argv m.fresh bs.length k).result.run (m.push ⟨.integer, .int a⟩) =
      (divAll? a bs).map fun q => (m.fresh, m.push ⟨.integer, .int q⟩) := by
  induction bs generalizing k a with
  | nil => rfl
  | cons b bs ih =>
    have hrest : ∀ i c, bs[i]? = some c → HoldsInt m (argv (k + 1 + i)) c := fun i c hc => by
      rw [Nat.add_assoc, Nat.add_comm 1]
      exact hargs (i + 1) c hc
    simp only [List.length_cons, fold, arg, result_bind, result_emit, result_pure, result_lift,
      pure_bind]
    rw [StateT.run_bind, run_binaryOp_div (p := argv k) (hargs 0 b rfl), divAll?]
    cases div? a b with
    | none => rfl
    | some q => exact ih hrest

/-- **The run of the primitive**, which stops at a division that the machine cannot do. -/
theorem run_divison (ext : Callees) (n : ℕ) (hne : vals ≠ [])
    (hargs : ∀ i a, vals[i]? = some a → HoldsInt m (argv i) a) :
    (divison ext n vals.length argv).result.run m =
      (quotient? vals).map fun q => (m.fresh, m.push ⟨.integer, .int q⟩) := by
  rcases vals with _ | ⟨a, _ | ⟨b, bs⟩⟩
  · exact absurd rfl hne
  · simp only [divison, foldRest, List.length_singleton, if_pos, result_bind, result_lift]
    rw [run_bind_of_run run_schemeAllocObj]
    exact run_fold_div [a] fun i c hc => by
      rw [Nat.zero_add]
      exact hargs i c hc
  · have hobj : (schemeObj (argv 0)).run m = some (⟨.integer, .int a⟩, m) :=
      run_readMem (hargs 0 a rfl)
    simp only [divison, foldRest, List.length_cons, Nat.add_eq_right, Nat.add_one_ne_zero, if_false,
      arg, result_bind, result_emit, result_pure, result_lift, pure_bind, bind_assoc]
    rw [run_bind_of_run hobj, run_bind_of_run run_schemeAllocObj]
    exact run_fold_div (b :: bs) fun i c hc => by
      rw [Nat.add_comm 1]
      exact hargs (i + 1) c hc

/-- **Integers are divided** when there is a quotient. -/
theorem divides_iff (hne : vals ≠ []) (hint : ∀ a ∈ vals, IsInt a)
    (hargs : ∀ i a, vals[i]? = some a → HoldsInt m (argv i) a) (ext : Callees) :
    Divides ext m argv vals ↔ Divisible vals := by
  rw [← quotient?_ne_none hne hint]
  have hrun (n : ℕ) := run_divison ext n hne hargs
  unfold Divides
  cases hq : quotient? vals with
  | none =>
    refine iff_of_false (fun h => ?_) (not_not.mpr rfl)
    obtain ⟨m', hvoid, -⟩ := h 0
    rw [hrun, hq] at hvoid
    cases hvoid
  | some q =>
    refine iff_of_true (fun n => ?_) (by simp)
    rw [hrun, hq]
    rfl

/-- A memory with the integers 7 and 0. -/
def twoIntegers : Memory := (Memory.init.push ⟨.integer, .int 7⟩).push ⟨.integer, .int 0⟩

theorem divides_iff_seven :
    Divides Primitive.idle twoIntegers (fun _ => .obj 6) [7, 7] ↔ Divisible [7, 7] := by
  have hint : IsInt 7 := ⟨by decide, by decide⟩
  refine divides_iff (by simp) (by simpa using hint) (fun i a ha => ?_) _
  obtain rfl : a = 7 := by simpa using List.mem_of_getElem? ha
  rfl

/-- Seven divided by nothing is a trap. -/
theorem not_divides : ¬∀ (ext : Callees) (m : Memory) (argv : ℕ → Ptr) (vals : List ℤ), vals ≠ [] →
    (∀ a ∈ vals, IsInt a) → (∀ i a, vals[i]? = some a → HoldsInt m (argv i) a) →
      Divides ext m argv vals := by
  intro h
  have hargs : ∀ i a, [7, 0][i]? = some a → HoldsInt twoIntegers (.obj (6 + i)) a := by
    intro i a ha
    rcases i with _ | _ | i
    all_goals cases ha
    all_goals rfl
  have hint : ∀ a ∈ [(7 : ℤ), 0], IsInt a := by simp [IsInt]
  obtain ⟨m', hvoid, -⟩ := h Primitive.idle twoIntegers (fun k => .obj (6 + k)) [7, 0] (by simp)
    hint hargs 0
  rw [run_divison _ _ (by simp) hargs] at hvoid
  cases hvoid

end SchemeOs
