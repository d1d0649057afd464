import SchemeOs.Machinery.Fuel

/-!
# Machinery/Ensures — what every result of a computation satisfies

Partial correctness for computations on a state that may fail: `Ensures k s Q` says that whatever
`k` returns from the state `s`, the result and the state after it satisfy `Q`.  The rules follow the
way the computation is built.
-/

namespace SchemeOs

variable {σ α β : Type} {k k' : StateT σ Option α} {s : σ} {Q R : α → σ → Prop}

/-- Every result of `k` from `s` satisfies `Q`. -/
def Ensures (k : StateT σ Option α) (s : σ) (Q : α → σ → Prop) : Prop :=
  ∀ a t, k.run s = some (a, t) → Q a t

namespace Ensures

theorem of_failure : Ensures (failure : StateT σ Option α) s Q := fun _ _ h => nomatch h

theorem of_pure {a : α} (h : Q a s) : Ensures (pure a) s Q := by
  rintro b t heq
  cases heq
  exact h

theorem of_run {a : α} {t : σ} (hk : k.run s = some (a, t)) (h : Q a t) : Ensures k s Q := by
  intro b u hu
  rw [hk] at hu
  cases hu
  exact h

theorem mono (h : Ensures k s R) (hQ : ∀ a t, R a t → Q a t) : Ensures k s Q :=
  fun a t hk => hQ a t (h a t hk)

/-- **Sequencing**: the second part starts where the first one ends. -/
theorem bind {f : α → StateT σ Option β} {T : β → σ → Prop} (h : Ensures k s R)
    (hf : ∀ a t, R a t → Ensures (f a) t T) : Ensures (k >>= f) s T := by
  intro b u hu
  rw [StateT.run_bind] at hu
  obtain ⟨⟨a, t⟩, hk, hfa⟩ := Option.bind_eq_some_iff.mp hu
  exact hf a t (h a t hk) b u hfa

/-- A first part whose result is known. -/
theorem run_bind {f : α → StateT σ Option β} {T : β → σ → Prop} {a : α} {t : σ}
    (hk : k.run s = some (a, t)) (h : Ensures (f a) t T) : Ensures (k >>= f) s T :=
  bind (of_run (Q := fun b u => b = a ∧ u = t) hk ⟨rfl, rfl⟩) fun _ _ ⟨hb, hu⟩ => hb ▸ hu ▸ h

theorem ite {p : Prop} [Decidable p] (h : p → Ensures k s Q) (h' : ¬p → Ensures k' s Q) :
    Ensures (if p then k else k') s Q := by
  by_cases hp : p
  · rw [if_pos hp]
    exact h hp
  · rw [if_neg hp]
    exact h' hp

theorem get_bind {f : σ → StateT σ Option α} (h : Ensures (f s) s Q) : Ensures (get >>= f) s Q :=
  run_bind rfl h

/-- What returns nothing, whatever the fuel, does not end. -/
theorem not_ends {f : ℕ → StateT σ Option α} {a : α} {t : σ}
    (h : ∀ n, Ensures (f n) s fun _ _ => False) : ¬Ends f s a t :=
  fun ⟨N, hN⟩ => h N a t (hN N le_rfl)

end Ensures

end SchemeOs
