import SchemeOs.Interpreter.Builtins

/-!
# Interpreter/StringEquality — which strings `string=?` and `string-ci=?` take for the same

Both primitives ask whether the comparison of the two buffers has found a difference.
-/

namespace SchemeOs

open Traced Builtins Strings

variable {m : Memory} {argv : ℕ → Ptr} {p : Ptr} {a b str : List Char} {n argc : ℕ}

/-- The string without the difference of upper and lower case of ASCII letters. -/
def foldCase (str : List Char) : List Char := str.map Char.toLower

/-- `string=?` says whether the strings are the same, and `string-ci=?` whether they are when the
case of letters does not count. -/
structure Compares (m : Memory) (argv : ℕ → Ptr) (a b : List Char) : Prop where
  eq (n argc : ℕ) : (stringEq n argc argv).result.run m = some (schemeBool (a = b), m)
  ciEq (n argc : ℕ) :
    (stringCiEq n argc argv).result.run m = some (schemeBool (foldCase a = foldCase b), m)

/-- `p` is a string object. -/
def HoldsString (m : Memory) (p : Ptr) (str : List Char) : Prop :=
  m.heap.obj? p = some ⟨.string, .str str⟩

theorem run_schemeStrVal (h : HoldsString m p str) : (schemeStrVal p).run m = some (str, m) := by
  have hobj : (schemeObj p).run m = some (⟨.string, .str str⟩, m) := run_readMem h
  rw [schemeStrVal, run_bind_of_run hobj]
  rfl

theorem schemeBool_inj {c d : Bool} : schemeBool c = schemeBool d ↔ c = d := by
  cases c <;> cases d <;> decide

section Run

variable (ha : HoldsString m (argv 0) a) (hb : HoldsString m (argv 1) b)

include ha hb

theorem run_stringEq :
    (stringEq n argc argv).result.run m = some (schemeBool (strcmp a b = 0), m) := by
  simp only [stringEq, arg, result_bind, result_emit, result_pure, result_lift, pure_bind]
  rw [run_bind_of_run (run_schemeStrVal ha), run_bind_of_run (run_schemeStrVal hb)]
  rfl

theorem run_stringCiEq :
    (stringCiEq n argc argv).result.run m = some (schemeBool (strcmp a b = 0), m) := by
  simp only [stringCiEq, arg, result_bind, result_emit, result_pure, result_lift, pure_bind,
    strcasecmp_eq]
  rw [run_bind_of_run (run_schemeStrVal ha), run_bind_of_run (run_schemeStrVal hb)]
  rfl

/-- The two answers are those of one comparison. -/
theorem compares_iff_strcmp : Compares m argv a b ↔
    (strcmp a b = 0 ↔ a = b) ∧ (strcmp a b = 0 ↔ foldCase a = foldCase b) := by
  have hanswer {q : Prop} [Decidable q] :
      some (schemeBool (strcmp a b = 0), m) = some (schemeBool q, m) ↔ (strcmp a b = 0 ↔ q) := by
    rw [Option.some_inj, Prod.mk.injEq, schemeBool_inj, decide_eq_decide]
    exact and_iff_left rfl
  constructor
  · intro h
    exact ⟨hanswer.mp ((run_stringEq ha hb).symm.trans (h.eq 0 2)),
      hanswer.mp ((run_stringCiEq ha hb).symm.trans (h.ciEq 0 2))⟩
  · rintro ⟨heq, hci⟩
    exact ⟨fun n argc => (run_stringEq ha hb).trans (hanswer.mpr heq),
      fun n argc => (run_stringCiEq ha hb).trans (hanswer.mpr hci)⟩

/-- **Strings are compared** rightly when neither is the beginning of the other, longer one, and
they do not differ in the case of letters only. -/
theorem compares_iff (hca : IsCString a) (hcb : IsCString b) : Compares m argv a b ↔
    ¬(a <+: b ∧ a ≠ b) ∧ ¬(b <+: a ∧ b ≠ a) ∧ (foldCase a = foldCase b → a = b) := by
  rw [compares_iff_strcmp ha hb, strcmp_eq_zero hca hcb]
  constructor
  · rintro ⟨heq, hci⟩
    exact ⟨fun h => h.2 (heq.mp (.inl h.1)), fun h => h.2 (heq.mp (.inr h.1)).symm,
      fun h => heq.mp (hci.mpr h)⟩
  · rintro ⟨hab, hba, hcase⟩
    have heq : a <+: b ∨ b <+: a ↔ a = b := by
      constructor
      · rintro (h | h)
        · exact not_not.mp fun hne => hab ⟨h, hne⟩
        · exact (not_not.mp fun hne => hba ⟨h, hne⟩).symm
      · rintro rfl
        exact .inl List.prefix_rfl
    exact ⟨heq, heq.trans ⟨fun h => h ▸ rfl, hcase⟩⟩

end Run

/-- A memory with the strings `"a"` and `"ab"`, and their addresses as arguments. -/
def twoStrings : Memory := (Memory.init.push ⟨.string, .str ['a']⟩).push ⟨.string, .str ['a', 'b']⟩

def twoArguments (k : ℕ) : Ptr := .obj (6 + k)

theorem compares_iff_ab :
    HoldsString twoStrings (twoArguments 0) ['a'] ∧
      HoldsString twoStrings (twoArguments 1) ['a', 'b'] ∧
      (Compares twoStrings twoArguments ['a'] ['a', 'b'] ↔
        ¬(['a'] <+: ['a', 'b'] ∧ ['a'] ≠ ['a', 'b']) ∧
          ¬(['a', 'b'] <+: ['a'] ∧ ['a', 'b'] ≠ ['a']) ∧
          (foldCase ['a'] = foldCase ['a', 'b'] → ['a'] = ['a', 'b'])) :=
  ⟨rfl, rfl, compares_iff rfl rfl (by simp [IsCString, nul]) (by simp [IsCString, nul])⟩

/-- A string is the same as a longer one that it is the beginning of. -/
theorem not_compares : ¬∀ (m : Memory) (argv : ℕ → Ptr) (a b : List Char),
    HoldsString m (argv 0) a → HoldsString m (argv 1) b → IsCString a → IsCString b →
      Compares m argv a b := by
  intro h
  have ha : HoldsString twoStrings (twoArguments 0) ['a'] := rfl
  have hb : HoldsString twoStrings (twoArguments 1) ['a', 'b'] := rfl
  have heq := (h _ _ _ _ ha hb (by simp [IsCString, nul]) (by simp [IsCString, nul])).eq 0 2
  rw [run_stringEq ha hb] at heq
  exact absurd heq (by decide)

end SchemeOs
