import SchemeOs.Machinery.Runs

/-!
# Machinery/Service — two implementations of one abstract machine

A service answers calls and goes to its next state.  An implementation is a step relation, labelled
by calls and answers, whose states are related to those of the service.  Implementations of one
service that are called alike answer alike, however their own states look.
-/

namespace SchemeOs

variable {σ τ τ' κ ρ : Type*}

/-- What a call is answered, and the state after it. -/
structure Service (σ κ ρ : Type*) where
  answer : σ → κ → ρ
  next : σ → κ → σ

namespace Service

variable {M : Service σ κ ρ} {step : τ → κ × ρ → τ → Prop} {step' : τ' → κ × ρ → τ' → Prop}
  {R : τ → σ → Prop} {R' : τ' → σ → Prop} {a : σ} {s t : τ} {s' t' : τ'} {ls ls' : List (κ × ρ)}

/-- The calls with their answers. -/
def trace (M : Service σ κ ρ) : σ → List κ → List (κ × ρ)
  | _, [] => []
  | a, c :: cs => (c, M.answer a c) :: M.trace (M.next a c) cs

/-- The state after the calls. -/
def after (M : Service σ κ ρ) (a : σ) (cs : List κ) : σ := cs.foldl M.next a

/-- Every step answers as the service does, and keeps the states related. -/
def Implements (M : Service σ κ ρ) (step : τ → κ × ρ → τ → Prop) (R : τ → σ → Prop) : Prop :=
  ∀ s a c r t, R s a → step s (c, r) t → r = M.answer a c ∧ R t (M.next a c)

/-- **A run of an implementation** is one of the service. -/
theorem Implements.trace_eq (h : M.Implements step R) (hr : Runs step s ls t) (hs : R s a) :
    ls = M.trace a (ls.map Prod.fst) ∧ R t (M.after a (ls.map Prod.fst)) := by
  induction hr generalizing a with
  | nil s => exact ⟨rfl, hs⟩
  | @cons s t u l ls hst _ ih =>
    obtain ⟨hr, ht⟩ := h _ _ _ _ _ hs hst
    obtain ⟨htrace, hu⟩ := ih ht
    exact ⟨congrArg₂ List.cons (Prod.ext rfl hr) htrace, hu⟩

/-- **Two implementations** that start alike and are called alike answer alike, and are related to
one state of the service afterwards. -/
theorem Implements.agree (h : M.Implements step R) (h' : M.Implements step' R') (hs : R s a)
    (hs' : R' s' a) (hr : Runs step s ls t) (hr' : Runs step' s' ls' t')
    (hcalls : ls.map Prod.fst = ls'.map Prod.fst) :
    ls = ls' ∧ R t (M.after a (ls.map Prod.fst)) ∧ R' t' (M.after a (ls.map Prod.fst)) := by
  obtain ⟨htrace, ht⟩ := h.trace_eq hr hs
  obtain ⟨htrace', ht'⟩ := h'.trace_eq hr' hs'
  rw [hcalls] at htrace ht ⊢
  exact ⟨htrace.trans htrace'.symm, ht, ht'⟩

end Service

end SchemeOs
