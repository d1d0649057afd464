import SchemeOs.Machinery.Ensures

/-!
# Machinery/Traced — computations that leave a trace

A computation on a state that may fail, and that leaves a trace of events whether it fails or not.
`result` forgets the trace; it is again a computation, made of the results of the parts.  `EachEvent
P` says that, from any state, all events in the trace satisfy `P`, and `Keeps I P Q` that in a run
whose events satisfy `P` they satisfy `Q`, because an invariant `I` holds throughout.  `Along R`
says that a run, cut short or not, goes along the relation `R` of its two states and its trace.
-/

namespace SchemeOs

variable {ε σ α β : Type}

/-- From a state: the result with the state after it, or nothing, and the events. -/
def Traced (ε σ α : Type) := σ → Option (α × σ) × List ε

namespace Traced

/-- What comes after the first part, which left the events `w`. -/
def next (w : List ε) (f : α → Traced ε σ β) : Option (α × σ) → Option (β × σ) × List ε
  | none => (none, w)
  | some (a, s) => ((f a s).1, w ++ (f a s).2)

instance : Monad (Traced ε σ) where
  pure a s := (some (a, s), [])
  bind x f s := next (x s).2 f (x s).1

/-- A computation without events. -/
def lift (k : StateT σ Option α) : Traced ε σ α := fun s => (k.run s, [])

/-- What there is, without any event. -/
def ofOption (o : Option α) : Traced ε σ α := lift fun s => o.map fun a => (a, s)

/-- An event, and nothing else. -/
def emit (e : ε) : Traced ε σ Unit := fun s => (some ((), s), [e])

/-- The computation from the state `s`. -/
def run (x : Traced ε σ α) (s : σ) : Option (α × σ) × List ε := x s

/-- The computation without its trace. -/
def result (x : Traced ε σ α) : StateT σ Option α := fun s => (x.run s).1

/-- The trace of the computation from the state `s`. -/
def trace (x : Traced ε σ α) (s : σ) : List ε := (x.run s).2

variable {x : Traced ε σ α} {f : α → Traced ε σ β} {k : StateT σ Option α} {s t : σ} {a : α} {e : ε}

theorem lift_bind_of_run {g : α → Traced ε σ β} (h : k.run s = some (a, t)) :
    (lift k >>= g).run s = (g a).run t := by
  change next [] g (k.run s) = (g a).run t
  rw [h]
  rfl

theorem lift_bind_of_none {g : α → Traced ε σ β} (h : k.run s = none) :
    (lift k >>= g).run s = (none, []) := by
  change next [] g (k.run s) = _
  rw [h]
  rfl

/-! ## Results -/

@[simp] theorem result_pure : (pure a : Traced ε σ α).result = pure a := rfl

@[simp] theorem result_bind : (x >>= f).result = x.result >>= fun a => (f a).result := by
  funext s
  change (next (x s).2 f (x s).1).1 = (x.result >>= fun a => (f a).result).run s
  rw [StateT.run_bind]
  change _ = (x s).1.bind fun r => (f r.1 r.2).1
  cases (x s).1 <;> rfl

@[simp] theorem result_lift : (lift k : Traced ε σ α).result = k := rfl

@[simp] theorem result_emit : (emit e : Traced ε σ Unit).result = pure () := rfl

@[simp] theorem result_ite {p : Prop} [Decidable p] {y : Traced ε σ α} :
    (if p then x else y).result = if p then x.result else y.result := by
  split <;> rfl

/-! ## Traces -/

@[simp] theorem trace_pure : (pure a : Traced ε σ α).trace s = [] := rfl

@[simp] theorem trace_lift : (lift k : Traced ε σ α).trace s = [] := rfl

@[simp] theorem trace_emit : (emit e : Traced ε σ Unit).trace s = [e] := rfl

/-- The events of the first part come first. -/
theorem mem_trace_bind (h : e ∈ x.trace s) : e ∈ (x >>= f).trace s := by
  change e ∈ (next (x s).2 f (x s).1).2
  cases (x s).1 with
  | none => exact h
  | some r => exact List.mem_append_left _ h

/-- All events that the computation leaves satisfy `P`. -/
def EachEvent (P : ε → Prop) (x : Traced ε σ α) : Prop := ∀ s, ∀ e ∈ x.trace s, P e

namespace EachEvent

variable {P : ε → Prop}

theorem of_pure : EachEvent P (pure a : Traced ε σ α) := fun _ _ h => nomatch h

theorem of_lift : EachEvent P (lift k : Traced ε σ α) := fun _ _ h => nomatch h

theorem of_emit (h : P e) : EachEvent P (emit e : Traced ε σ Unit) := fun _ e' he => by
  rw [trace_emit, List.mem_singleton] at he
  exact he ▸ h

/-- **Sequencing**: the trace is that of the first part, and that of the second if the first one
returns. -/
theorem bind (hx : EachEvent P x) (hf : ∀ a, EachEvent P (f a)) : EachEvent P (x >>= f) := by
  intro s e he
  change e ∈ (next (x s).2 f (x s).1).2 at he
  have hxs := hx s
  unfold trace at hxs
  revert he
  cases (x s).1 with
  | none => exact fun he => hxs e he
  | some r => exact fun he => (List.mem_append.mp he).elim (hxs e) (hf r.1 r.2 e)

theorem lift_bind {g : α → Traced ε σ β} (hg : ∀ a, EachEvent P (g a)) :
    EachEvent P (lift k >>= g) :=
  bind of_lift hg

theorem ite {p : Prop} [Decidable p] {y : Traced ε σ α} (hx : p → EachEvent P x)
    (hy : ¬p → EachEvent P y) : EachEvent P (if p then x else y) := by
  split
  · next h => exact hx h
  · next h => exact hy h

end EachEvent

/-! ## Invariants of runs -/

/-- From a state in `I`, in a run whose events all satisfy `P`: all events satisfy `Q`, and the
state after it is in `I`. -/
def Keeps (I : σ → Prop) (P Q : ε → Prop) (x : Traced ε σ α) : Prop :=
  ∀ s, I s → (∀ e ∈ x.trace s, P e) →
    (∀ e ∈ x.trace s, Q e) ∧ ∀ a t, (x.run s).1 = some (a, t) → I t

namespace Keeps

variable {I : σ → Prop} {P Q : ε → Prop}

theorem of_pure : Keeps I P Q (pure a : Traced ε σ α) := by
  refine fun s hs _ => ⟨nofun, ?_⟩
  rintro b t heq
  cases heq
  exact hs

theorem of_lift (h : ∀ s, I s → Ensures k s fun _ t => I t) : Keeps I P Q (lift k : Traced ε σ α) :=
  fun s hs _ => ⟨nofun, h s hs⟩

/-- **Sequencing**: what the first part leaves is where the second one starts. -/
theorem bind (hx : Keeps I P Q x) (hf : ∀ a, Keeps I P Q (f a)) : Keeps I P Q (x >>= f) := by
  intro s hs hP
  obtain ⟨hQ, hI⟩ := hx s hs fun e he => hP e (mem_trace_bind he)
  have htrace : (x >>= f).trace s = (next (x.trace s) f (x.run s).1).2 := rfl
  have hrun : ((x >>= f).run s).1 = (next (x.trace s) f (x.run s).1).1 := rfl
  rw [htrace] at hP ⊢
  rw [hrun]
  cases hres : (x.run s).1 with
  | none => exact ⟨hQ, nofun⟩
  | some r =>
    obtain ⟨a, t⟩ := r
    rw [hres] at hP
    obtain ⟨hQ', hI'⟩ := hf a t (hI a t hres) fun e he => hP e (List.mem_append_right _ he)
    refine ⟨fun e he => ?_, hI'⟩
    rcases List.mem_append.mp he with he | he
    · exact hQ e he
    · exact hQ' e he

theorem ite {p : Prop} [Decidable p] {y : Traced ε σ α} (hx : p → Keeps I P Q x)
    (hy : ¬p → Keeps I P Q y) : Keeps I P Q (if p then x else y) := by
  split
  · next h => exact hx h
  · next h => exact hy h

end Keeps

/-! ## Runs cut into parts

A path through the states, with the events of each part. -/

@[simp] theorem run_pure : (pure a : Traced ε σ α).run s = (some (a, s), []) := rfl

@[simp] theorem run_emit : (emit e : Traced ε σ Unit).run s = (some ((), s), [e]) := rfl

/-- A run of two parts that returns. -/
theorem run_bind_eq_some {b : β} {w : List ε} : (x >>= f).run s = (some (b, t), w) ↔
    ∃ a u w₁ w₂, x.run s = (some (a, u), w₁) ∧ (f a).run u = (some (b, t), w₂) ∧ w = w₁ ++ w₂ := by
  change next (x s).2 f (x s).1 = _ ↔ _
  constructor
  · intro h
    cases hx : (x s).1 with
    | none =>
      rw [hx] at h
      cases h
    | some r =>
      obtain ⟨a, u⟩ := r
      rw [hx] at h
      have hres : (f a u).1 = some (b, t) := congrArg Prod.fst h
      exact ⟨a, u, (x s).2, (f a u).2, Prod.ext hx rfl, Prod.ext hres rfl,
        (congrArg Prod.snd h).symm⟩
  · rintro ⟨a, u, w₁, w₂, hx, hf, rfl⟩
    have hx' : x s = (some (a, u), w₁) := hx
    have hf' : f a u = (some (b, t), w₂) := hf
    rw [hx']
    change ((f a u).1, w₁ ++ (f a u).2) = _
    rw [hf']

/-- What a run of two parts returns. -/
theorem run_bind_fst : ((x >>= f).run s).1 = (x.run s).1.bind fun r => ((f r.1).run r.2).1 := by
  change (next (x s).2 f (x s).1).1 = (x s).1.bind fun r => (f r.1 r.2).1
  cases (x s).1 <;> rfl

/-- Whether a run of two parts returns, when that of the second part is settled by the first one. -/
theorem isSome_run_bind {b : Bool}
    (h : ∀ a t, (x.run s).1 = some (a, t) → ((f a).run t).1.isSome = b) :
    ((x >>= f).run s).1.isSome = ((x.run s).1.isSome && b) := by
  rw [run_bind_fst]
  cases hx : (x.run s).1 with
  | none => rfl
  | some r => exact h r.1 r.2 hx

/-- A relation of two states and the events between them that can be gone along step by step. -/
structure Path (R : σ → List ε → σ → Prop) : Prop where
  refl : ∀ s, R s [] s
  trans : ∀ {s t u w w'}, R s w t → R t w' u → R s (w ++ w') u

/-- Every run goes along `R`: to the state that it returns, or to some state if it fails. -/
def Along (R : σ → List ε → σ → Prop) (x : Traced ε σ α) : Prop :=
  ∀ s, (∀ a t, (x.run s).1 = some (a, t) → R s (x.trace s) t) ∧
    ((x.run s).1 = none → ∃ t, R s (x.trace s) t)

namespace Along

variable {R : σ → List ε → σ → Prop}

theorem of_run (h : ∀ s, ∃ a t, x.run s = (some (a, t), []) ∧ R s [] t) : Along R x := by
  intro s
  obtain ⟨a, t, hx, hR⟩ := h s
  unfold trace
  rw [hx]
  refine ⟨?_, nofun⟩
  rintro a' t' ⟨⟩
  exact hR

theorem of_pure (hR : Path R) : Along R (pure a : Traced ε σ α) :=
  of_run fun s => ⟨a, s, rfl, hR.refl s⟩

theorem of_failure (hR : Path R) : Along R (lift failure : Traced ε σ α) :=
  fun s => ⟨nofun, fun _ => ⟨s, hR.refl s⟩⟩

theorem of_emit (h : ∀ s, R s [e] s) : Along R (emit e : Traced ε σ Unit) := by
  refine fun s => ⟨?_, nofun⟩
  rintro a t ⟨⟩
  exact h s

/-- **Sequencing**: the second part goes on where the first one has come to. -/
theorem bind (hR : Path R) (hx : Along R x) (hf : ∀ a, Along R (f a)) : Along R (x >>= f) := by
  intro s
  have htrace : (x >>= f).trace s = (next (x.trace s) f (x.run s).1).2 := rfl
  have hrun : ((x >>= f).run s).1 = (next (x.trace s) f (x.run s).1).1 := rfl
  rw [htrace, hrun]
  cases hres : (x.run s).1 with
  | none => exact ⟨nofun, fun _ => (hx s).2 hres⟩
  | some r =>
    obtain ⟨a, t⟩ := r
    have hfirst := (hx s).1 a t hres
    refine ⟨fun b u hu => hR.trans hfirst ((hf a t).1 b u hu), fun hnone => ?_⟩
    obtain ⟨u, hu⟩ := (hf a t).2 hnone
    exact ⟨u, hR.trans hfirst hu⟩

theorem run (h : Along R x) {w : List ε} (hrun : x.run s = (some (a, t), w)) : R s w t := by
  have htrace : x.trace s = w := congrArg Prod.snd hrun
  exact htrace ▸ (h s).1 a t (congrArg Prod.fst hrun)

end Along

end Traced

end SchemeOs
