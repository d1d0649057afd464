import Mathlib.Logic.Relation

/-!
# Machinery/Runs — labelled runs and their invariants

A system is a relation `step : σ → α → σ → Prop` between states, labelled by the call made.  `Runs`
strings steps together; `Guarded` keeps the steps whose source state meets a condition, so that "a
run all of whose steps meet the condition" is a run of the guarded relation.
-/

namespace SchemeOs

variable {σ α : Type*} {step step' : σ → α → σ → Prop} {G : σ → α → Prop} {P : σ → Prop}

/-- The calls `as`, made one after the other, lead from one state to another. -/
inductive Runs (step : σ → α → σ → Prop) : σ → List α → σ → Prop where
  | nil (s : σ) : Runs step s [] s
  | cons {s t u : σ} {a : α} {as : List α} :
      step s a t → Runs step t as u → Runs step s (a :: as) u

/-- The steps taken in a state that meets the condition `G`. -/
def Guarded (G : σ → α → Prop) (step : σ → α → σ → Prop) (s : σ) (a : α) (t : σ) : Prop :=
  G s a ∧ step s a t

namespace Runs

theorem single {s t : σ} {a : α} (h : step s a t) : Runs step s [a] t := cons h (nil t)

/-- Runs compose. -/
theorem append {s t u : σ} {as bs : List α} (h : Runs step s as t) (k : Runs step t bs u) :
    Runs step s (as ++ bs) u := by
  induction h with
  | nil s => exact k
  | cons hs _ ih => exact cons hs (ih k)

/-- A run of a smaller relation is a run of a larger one. -/
theorem mono (hle : ∀ s a t, step s a t → step' s a t) {s t : σ} {as : List α}
    (h : Runs step s as t) : Runs step' s as t := by
  induction h with
  | nil s => exact nil s
  | cons hs _ ih => exact cons (hle _ _ _ hs) ih

/-- A run of a deterministic system that can go no further is the only one. -/
theorem unique_of_stuck {s t u : σ} {as bs : List α} (h : Runs step s as t)
    (hdet : ∀ s a b t u, step s a t → step s b u → t = u) (ht : ∀ a v, ¬step t a v)
    (hu : ∀ a v, ¬step u a v) (k : Runs step s bs u) : t = u := by
  induction h generalizing bs with
  | nil s =>
    cases k with
    | nil => rfl
    | cons hs _ => exact (ht _ _ hs).elim
  | cons hs _ ih =>
    cases k with
    | nil => exact (hu _ _ hs).elim
    | cons hs' k' =>
      obtain rfl := hdet _ _ _ _ _ hs hs'
      exact ih ht k'

/-- **The invariant rule**: what every step preserves, every run preserves. -/
theorem invariant (hstep : ∀ s a t, P s → step s a t → P t) {s t : σ} {as : List α}
    (h : Runs step s as t) (hs : P s) : P t := by
  induction h with
  | nil s => exact hs
  | cons hst _ ih => exact ih (hstep _ _ _ hs hst)

/-- The invariant rule for a guarded system: the step lemma may use the guard. -/
theorem guarded_invariant (hstep : ∀ s a t, P s → G s a → step s a t → P t) {s t : σ}
    {as : List α} (h : Runs (Guarded G step) s as t) (hs : P s) : P t :=
  h.invariant (fun s a t hP hst => hstep s a t hP hst.1 hst.2) hs

/-- **The exact guard**: where the guard says when a step keeps `P`, it is met in just those runs
that keep `P` in every step. -/
theorem guard_exact {I : σ → Prop} (hG : ∀ s a t, I s → step s a t → (G s a ↔ P t))
    (hI : ∀ s a t, I s → step s a t → P t → I t) {s t : σ} {as : List α} (hs : I s) :
    Runs (Guarded G step) s as t ↔ Runs (fun s a t => step s a t ∧ P t) s as t := by
  constructor
  · intro h
    induction h with
    | nil s => exact nil s
    | cons hst _ ih =>
      have hP := (hG _ _ _ hs hst.2).mp hst.1
      exact cons ⟨hst.2, hP⟩ (ih (hI _ _ _ hs hst.2 hP))
  · intro h
    induction h with
    | nil s => exact nil s
    | cons hst _ ih =>
      exact cons ⟨(hG _ _ _ hs hst.1).mpr hst.2, hst.1⟩ (ih (hI _ _ _ hs hst.1 hst.2))

end Runs

end SchemeOs
