import Mathlib.Data.Nat.Notation
import Mathlib.Logic.Basic
import Mathlib.Tactic.SplitIfs

/-!
# Machinery/Coupled — two runs of a computation

A triple about two computations on states that may fail.  From states that are related by the
precondition, the second has a result wherever the first has one, the results are the same, and the
states after it are related by the postcondition, which may depend on the result.
-/

namespace SchemeOs

variable {σ τ α β : Type} {P P' : σ → τ → Prop} {Q Q' : α → σ → τ → Prop}
  {x : StateT σ Option α} {y : StateT τ Option α}

/-- Where `x` has a result `y` has the same, from the states of `P` to those of `Q`. -/
def Coupled (P : σ → τ → Prop) (x : StateT σ Option α) (y : StateT τ Option α)
    (Q : α → σ → τ → Prop) : Prop :=
  ∀ s t, P s t → ∀ a s', x.run s = some (a, s') → ∃ t', y.run t = some (a, t') ∧ Q a s' t'

namespace Coupled

theorem of_failure : Coupled P failure y Q := fun _ _ _ _ _ h => nomatch h

theorem of_pure {a : α} (h : ∀ s t, P s t → Q a s t) : Coupled P (pure a) (pure a) Q := by
  intro s t hst b s' hs
  cases hs
  exact ⟨t, rfl, h s t hst⟩

theorem pre (hP : ∀ s t, P' s t → P s t) (h : Coupled P x y Q) : Coupled P' x y Q :=
  fun s t hst => h s t (hP s t hst)

theorem post (h : Coupled P x y Q) (hQ : ∀ a s t, Q a s t → Q' a s t) : Coupled P x y Q' := by
  intro s t hst a s' hs
  obtain ⟨t', ht, hst'⟩ := h s t hst a s' hs
  exact ⟨t', ht, hQ a s' t' hst'⟩

/-- **Sequencing**: the second part starts where the first one ends. -/
theorem bind {R : β → σ → τ → Prop} {f : α → StateT σ Option β} {g : α → StateT τ Option β}
    (h : Coupled P x y Q) (hfg : ∀ a, Coupled (Q a) (f a) (g a) R) :
    Coupled P (x >>= f) (y >>= g) R := by
  intro s t hst b s'' hs
  rw [StateT.run_bind] at hs
  obtain ⟨⟨a, s'⟩, hx, hf⟩ := Option.bind_eq_some_iff.mp hs
  obtain ⟨t', hy, hst'⟩ := h s t hst a s' hx
  obtain ⟨t'', hg, hst''⟩ := hfg a s' t' hst' b s'' hf
  refine ⟨t'', ?_, hst''⟩
  rw [StateT.run_bind, hy]
  exact hg

/-- What follows may depend on the state. -/
theorem get_bind {f : σ → StateT σ Option α} {g : τ → StateT τ Option α}
    (h : ∀ s t, P s t → Coupled P (f s) (g t) Q) : Coupled P (get >>= f) (get >>= g) Q := by
  intro s t hst a s' hs
  exact h s t hst s t hst a s' hs

theorem of_modify {f : σ → σ} {g : τ → τ} {Q : PUnit → σ → τ → Prop}
    (h : ∀ s t, P s t → Q ⟨⟩ (f s) (g t)) : Coupled P (modify f) (modify g) Q := by
  intro s t hst a s' hs
  cases hs
  exact ⟨g t, rfl, h s t hst⟩

/-- A computation that does not use the state. -/
theorem of_lift {o o' : Option α} (h : ∀ s t, P s t → ∀ a, o = some a → o' = some a ∧ Q a s t) :
    Coupled P (liftM o : StateT σ Option α) (liftM o' : StateT τ Option α) Q := by
  intro s t hst a s' hs
  obtain ⟨b, hb, heq⟩ := Option.bind_eq_some_iff.mp hs
  cases heq
  obtain ⟨ho, hQ⟩ := h s t hst a hb
  exact ⟨t, Option.bind_eq_some_iff.mpr ⟨a, ho, rfl⟩, hQ⟩

theorem ite {p : Prop} [Decidable p] {x' : StateT σ Option α} {y' : StateT τ Option α}
    (h : Coupled P x y Q) (h' : Coupled P x' y' Q) :
    Coupled P (if p then x else x') (if p then y else y') Q := by
  split_ifs
  · exact h
  · exact h'

end Coupled

end SchemeOs
