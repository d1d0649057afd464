import Mathlib.Data.Nat.Notation
import Mathlib.Order.Basic
import Mathlib.Data.Nat.Basic

/-!
# Machinery/Fuel — results of fuelled computations

A loop or recursion that need not end is a function of a fuel argument: a computation on a state
that fails when the fuel runs out, or when it does something undefined.  `Ends f s a t` says that
`f`, started in `s`, ends with the result `a` in the state `t`: it does so with any fuel that is
large enough.  A sequence of computations ends when its parts do.
-/

namespace SchemeOs

variable {σ α β : Type} {f : ℕ → StateT σ Option α} {k k' : StateT σ Option α} {s t u : σ} {a b : α}
  {c : β}

/-- The fuelled computation `f`, started in `s`, ends with the result `a` in the state `t`. -/
def Ends (f : ℕ → StateT σ Option α) (s : σ) (a : α) (t : σ) : Prop :=
  ∃ N, ∀ n, N ≤ n → (f n).run s = some (a, t)

namespace Ends

/-- A computation that needs no fuel. -/
theorem of_run {k : StateT σ Option α} (h : k.run s = some (a, t)) : Ends (fun _ => k) s a t :=
  ⟨0, fun _ _ => h⟩

theorem pure : Ends (fun _ => (Pure.pure a : StateT σ Option α)) s a s := of_run rfl

/-- A computation that spends one unit of fuel before it goes on. -/
theorem succ (h : Ends (fun n => f (n + 1)) s a t) : Ends f s a t := by
  obtain ⟨N, hN⟩ := h
  refine ⟨N + 1, fun n hn => ?_⟩
  obtain ⟨m, rfl⟩ : ∃ m, n = m + 1 := ⟨n - 1, by omega⟩
  exact hN m (by omega)

/-- The result is unique. -/
theorem unique (ha : Ends f s a t) (hb : Ends f s b u) : a = b ∧ t = u := by
  obtain ⟨N, hN⟩ := ha
  obtain ⟨M, hM⟩ := hb
  have heq := (hN _ (Nat.le_max_left N M)).symm.trans (hM _ (Nat.le_max_right N M))
  exact Prod.ext_iff.mp (Option.some.inj heq)

/-- **Sequencing**: a computation followed by one that depends on its result. -/
theorem bind {g : ℕ → α → StateT σ Option β} (ha : Ends f s a t)
    (hc : Ends (fun n => g n a) t c u) : Ends (fun n => f n >>= g n) s c u := by
  obtain ⟨N, hN⟩ := ha
  obtain ⟨M, hM⟩ := hc
  refine ⟨max N M, fun n hn => ?_⟩
  have hf := hN n ((Nat.le_max_left N M).trans hn)
  have hg := hM n ((Nat.le_max_right N M).trans hn)
  simp only [StateT.run_bind, hf]
  exact hg

/-- A computation that needs no fuel, followed by one that does. -/
theorem run_bind {k : StateT σ Option α} {g : ℕ → α → StateT σ Option β}
    (ha : k.run s = some (a, t)) (hc : Ends (fun n => g n a) t c u) :
    Ends (fun n => k >>= g n) s c u :=
  (of_run ha).bind hc

/-- A branch whose condition holds. -/
theorem ite_pos {p : Prop} [Decidable p] {g : ℕ → StateT σ Option α} (hp : p) (h : Ends f s a t) :
    Ends (fun n => if p then f n else g n) s a t := by
  simpa only [if_pos hp] using h

/-- A branch whose condition does not hold. -/
theorem ite_neg {p : Prop} [Decidable p] {g : ℕ → StateT σ Option α} (hp : ¬p) (h : Ends f s a t) :
    Ends (fun n => if p then g n else f n) s a t := by
  simpa only [if_neg hp] using h

/-- Computations that agree end alike. -/
theorem congr {g : ℕ → StateT σ Option α} (hfg : ∀ n, g n = f n) (ha : Ends f s a t) :
    Ends g s a t :=
  ha.imp fun _ hN n hn => hfg n ▸ hN n hn

end Ends

/-! ## More fuel

A family that gives the same result with more fuel ends with it from some fuel on. -/

/-- Whatever `k` returns, `k'` returns. -/
def Extends (k k' : StateT σ Option α) : Prop :=
  ∀ s a t, k.run s = some (a, t) → k'.run s = some (a, t)

/-- A first part whose result is known. -/
theorem run_bind_of_run {f : α → StateT σ Option β} (h : k.run s = some (a, t)) :
    (k >>= f).run s = (f a).run t := by
  rw [StateT.run_bind, h]
  rfl

namespace Extends

theorem refl : Extends k k := fun _ _ _ h => h

theorem of_failure : Extends (failure : StateT σ Option α) k := fun _ _ _ h => nomatch h

theorem trans {k'' : StateT σ Option α} (h : Extends k k') (h' : Extends k' k'') :
    Extends k k'' := fun s a t hk => h' s a t (h s a t hk)

/-- **Sequencing**: both parts return what they returned. -/
theorem bind {f f' : α → StateT σ Option β} (h : Extends k k') (hf : ∀ a, Extends (f a) (f' a)) :
    Extends (k >>= f) (k' >>= f') := by
  intro s b u hu
  rw [StateT.run_bind] at hu
  obtain ⟨⟨a, t⟩, hk, hfa⟩ := Option.bind_eq_some_iff.mp hu
  rw [StateT.run_bind, h s a t hk]
  exact hf a t b u hfa

theorem ite {p : Prop} [Decidable p] {l l' : StateT σ Option α} (h : Extends k k')
    (h' : Extends l l') : Extends (if p then k else l) (if p then k' else l') := by
  split
  · exact h
  · exact h'

/-- With more fuel a computation returns what it returned with less. -/
theorem of_le {f : ℕ → StateT σ Option α} (hf : ∀ n, Extends (f n) (f (n + 1))) {n n' : ℕ}
    (h : n ≤ n') : Extends (f n) (f n') := by
  induction h with
  | refl => exact refl
  | step _ ih => exact ih.trans (hf _)

theorem ends {f : ℕ → StateT σ Option α} (hf : ∀ n, Extends (f n) (f (n + 1))) {n : ℕ}
    (h : (f n).run s = some (a, t)) : Ends f s a t :=
  ⟨n, fun _ hn => of_le hf hn s a t h⟩

end Extends

end SchemeOs
