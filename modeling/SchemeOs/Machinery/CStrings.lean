import Mathlib.Data.Nat.Notation
import Mathlib.Logic.Function.Basic

/-!
# Machinery/CStrings — NUL-terminated strings in memory

A memory maps addresses to characters, one of which, `nul`, ends strings.
-/

namespace SchemeOs

variable {κ : Type*} {nul : κ} {mem mem' : ℕ → κ} {a : ℕ} {u v : List κ}

/-- The string `w` is at the address `a`, with `nul` behind it and no `nul` in it. -/
def StrAt (nul : κ) (mem : ℕ → κ) : ℕ → List κ → Prop
  | a, [] => mem a = nul
  | a, c :: w => mem a = c ∧ c ≠ nul ∧ StrAt nul mem (a + 1) w

namespace StrAt

/-- There is one string at an address. -/
theorem unique (hu : StrAt nul mem a u) (hv : StrAt nul mem a v) : u = v := by
  induction u generalizing a v with
  | nil =>
    cases v with
    | nil => rfl
    | cons d v => exact absurd (hv.1.symm.trans hu) hv.2.1
  | cons c u ih =>
    cases v with
    | nil => exact absurd (hu.1.symm.trans hv) hu.2.1
    | cons d v =>
      rw [← hu.1, ← hv.1]
      exact congrArg _ (ih hu.2.2 hv.2.2)

/-- A string depends on its own characters and the `nul` behind them. -/
theorem congr (hu : StrAt nul mem a u) (h : ∀ x, a ≤ x → x ≤ a + u.length → mem' x = mem x) :
    StrAt nul mem' a u := by
  induction u generalizing a with
  | nil => exact (h a (Nat.le_refl a) (Nat.le_refl _)).trans hu
  | cons c u ih =>
    refine ⟨(h a (Nat.le_refl a) (Nat.le_add_right _ _)).trans hu.1, hu.2.1, ?_⟩
    exact ih hu.2.2 fun x hl hx => h x (by omega) (by rw [List.length_cons]; omega)

/-- A copy of a string is the same string. -/
theorem copy {b : ℕ} (hu : StrAt nul mem a u) (h : ∀ i, i ≤ u.length → mem' (b + i) = mem (a + i)) :
    StrAt nul mem' b u := by
  induction u generalizing a b with
  | nil => exact (h 0 (Nat.le_refl 0)).trans hu
  | cons c u ih =>
    refine ⟨(h 0 (Nat.zero_le _)).trans hu.1, hu.2.1, ih hu.2.2 fun i hi => ?_⟩
    rw [Nat.add_assoc, Nat.add_assoc, Nat.add_comm 1 i]
    exact h (i + 1) (by rw [List.length_cons]; omega)

end StrAt

/-! ## Writing -/

/-- The memory with the characters `w` written from `a` on. -/
def writeAt (mem : ℕ → κ) : ℕ → List κ → ℕ → κ
  | _, [] => mem
  | a, c :: w => writeAt (Function.update mem a c) (a + 1) w

theorem writeAt_of_lt {x : ℕ} (h : x < a) : writeAt mem a u x = mem x := by
  induction u generalizing mem a with
  | nil => rfl
  | cons c u ih => rw [writeAt, ih (by omega), Function.update_of_ne (by omega)]

/-- **Writing on**: what is written behind the characters written. -/
theorem writeAt_append (mem : ℕ → κ) (a : ℕ) (u v : List κ) :
    writeAt mem a (u ++ v) = writeAt (writeAt mem a u) (a + u.length) v := by
  induction u generalizing mem a with
  | nil => rfl
  | cons c u ih =>
    rw [List.cons_append, writeAt, ih, writeAt, List.length_cons, Nat.add_assoc,
      Nat.add_comm 1 u.length]

/-- **Writing over** the last character. -/
theorem writeAt_overwrite (mem : ℕ → κ) (a : ℕ) (u v : List κ) (c d : κ) :
    writeAt (writeAt mem a (u ++ [c])) (a + u.length) (d :: v) = writeAt mem a (u ++ d :: v) := by
  rw [writeAt_append, writeAt_append]
  simp only [writeAt, Function.update_idem]

/-- A string is where it was written. -/
theorem strAt_writeAt (h : nul ∉ u) : StrAt nul (writeAt mem a (u ++ [nul])) a u := by
  induction u generalizing mem a with
  | nil => exact Function.update_self ..
  | cons c u ih =>
    rw [List.mem_cons, not_or] at h
    refine ⟨?_, Ne.symm h.1, ih h.2⟩
    rw [List.cons_append, writeAt, writeAt_of_lt (Nat.lt_succ_self a), Function.update_self]

theorem StrAt.notMem (h : StrAt nul mem a u) : nul ∉ u := by
  induction u generalizing a with
  | nil => exact List.not_mem_nil
  | cons c u ih =>
    rw [List.mem_cons, not_or]
    exact ⟨Ne.symm h.2.1, ih h.2.2⟩

end SchemeOs
