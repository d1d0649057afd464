import Mathlib.Data.Nat.Notation
import Mathlib.Logic.Basic

/-!
# Machinery/Refines — computations with less information

A computation on a state that may fail refines another one if it has that one's result wherever it
has a result, from states that are related, and leaves states that are related.  A computation that
fails where its state does not say enough refines the same computation on a state that says more.
-/

namespace SchemeOs

variable {σ τ α β : Type} {R : σ → τ → Prop}

/-- Where `x` has a result, `y` has the same, and related states stay related. -/
def Refines (R : σ → τ → Prop) (x : StateT σ Option α) (y : StateT τ Option α) : Prop :=
  ∀ s t, R s t → ∀ a s', x.run s = some (a, s') → ∃ t', y.run t = some (a, t') ∧ R s' t'

namespace Refines

theorem of_failure {y : StateT τ Option α} : Refines R failure y := fun _ _ _ _ _ h => nomatch h

theorem of_pure (a : α) : Refines R (pure a) (pure a) := by
  rintro s t hst b s' h
  cases h
  exact ⟨t, rfl, hst⟩

/-- **Sequencing**: the second part may use that of the first the result is the same. -/
theorem bind {x : StateT σ Option α} {y : StateT τ Option α} {f : α → StateT σ Option β}
    {g : α → StateT τ Option β} (hxy : Refines R x y) (hfg : ∀ a, Refines R (f a) (g a)) :
    Refines R (x >>= f) (y >>= g) := by
  intro s t hst b s'' h
  rw [StateT.run_bind] at h
  obtain ⟨⟨a, s'⟩, hx, hf⟩ := Option.bind_eq_some_iff.mp h
  obtain ⟨t', hy, hst'⟩ := hxy s t hst a s' hx
  obtain ⟨t'', hg, hst''⟩ := hfg a s' t' hst' b s'' hf
  refine ⟨t'', ?_, hst''⟩
  rw [StateT.run_bind, hy]
  exact hg

/-- What follows may depend on the state. -/
theorem get_bind {f : σ → StateT σ Option β} {g : τ → StateT τ Option β}
    (hfg : ∀ s t, R s t → Refines R (f s) (g t)) : Refines R (get >>= f) (get >>= g) := by
  intro s t hst b s' h
  exact hfg s t hst s t hst b s' h

theorem of_modify {f : σ → σ} {g : τ → τ} (h : ∀ s t, R s t → R (f s) (g t)) :
    Refines R (modify f) (modify g) := by
  rintro s t hst b s' hs
  cases hs
  exact ⟨g t, rfl, h s t hst⟩

/-- A computation that does not use the state. -/
theorem of_lift {x y : Option α} (h : ∀ a, x = some a → y = some a) :
    Refines R (liftM x : StateT σ Option α) (liftM y : StateT τ Option α) := by
  intro s t hst a s' hs
  obtain ⟨b, hb, heq⟩ := Option.bind_eq_some_iff.mp hs
  cases heq
  exact ⟨t, Option.bind_eq_some_iff.mpr ⟨a, h a hb, rfl⟩, hst⟩

/-- A branch on a condition that is the same. -/
theorem ite {p q : Prop} [Decidable p] [Decidable q] (hpq : p ↔ q) {x x' : StateT σ Option α}
    {y y' : StateT τ Option α} (h : Refines R x y) (h' : Refines R x' y') :
    Refines R (if p then x else x') (if q then y else y') := by
  by_cases hp : p
  · rw [if_pos hp, if_pos (hpq.mp hp)]
    exact h
  · rw [if_neg hp, if_neg fun hq => hp (hpq.mpr hq)]
    exact h'

end Refines

end SchemeOs
