import SchemeOs.Interpreter.Analysis
import SchemeOs.Interpreter.EnvironmentRuns
import SchemeOs.Interpreter.Stores

/-!
# Interpreter/EvalCorrect — evaluation follows the big-step semantics

By induction on the derivation: whatever the semantics says of an expression, `schemeEval` does with
a datum that reads as it, or with a node that stands for it.  The invariant is `Stores`: the
environments in memory are the scopes of the store, value by value.
-/

namespace SchemeOs

variable {ext : Externals} {m m₁ m' : Memory} {H H₁ H' : Heap} {envs envs₁ : List Ptr}
  {σ τ υ : Scopes Ptr SValue} {i : ℕ} {p q r c ep : Ptr} {v : SValue} {t : SchemeType} {e : SExpr}
  {es : List SExpr} {k k' : ℕ → Comp Ptr}

/-- The semantics of the interpreter: a definition yields its symbol, and only `schemeFalse` is
false. -/
abbrev SEvaluates := Evaluates (K := Ptr) (C := Ptr) id schemeFalse

/-- The computation `k` ends with the value `v` and the store `τ`, in a memory that only grew. -/
def EvalsTo (k : ℕ → Comp Ptr) (m : Memory) (H : Heap) (envs : List Ptr) (v : SValue)
    (τ : Scopes Ptr SValue) : Prop :=
  ∃ q m' H' envs', Ends k m q m' ∧ Grows m H m' H' ∧ envs <+: envs' ∧ Stores m' H' envs' τ ∧
    ValueAt H' envs' q v

/-- What goes before a computation. -/
theorem EvalsTo.after (h : EvalsTo k m₁ H₁ envs₁ v τ) (hgrows : Grows m H m₁ H₁)
    (henvs : envs <+: envs₁) (hk : ∀ q m', Ends k m₁ q m' → Ends k' m q m') :
    EvalsTo k' m H envs v τ := by
  obtain ⟨q, m', H', envs', hends, hgrows', henvs', hrest⟩ := h
  exact ⟨q, m', H', envs', hk q m' hends, hgrows.trans hgrows', henvs.trans henvs', hrest⟩

/-- The state in which an expression is evaluated: a part of the memory, the store that the
environments are, and the environment of the scope `i`. -/
structure Ready (m : Memory) (H : Heap) (envs : List Ptr) (σ : Scopes Ptr SValue) (i : ℕ)
    (ep : Ptr) : Prop where
  part : H.Sub m.heap
  constants : Constants H
  stores : Stores m H envs σ
  env : envs[i]? = some ep

theorem getElem?_of_prefix {l l' : List Ptr} (h : l <+: l') (hi : l[i]? = some p) :
    l'[i]? = some p := by
  obtain ⟨more, rfl⟩ := h
  rw [List.getElem?_append_left (List.getElem?_eq_some_iff.mp hi).1, hi]

/-- The state after a computation that ended with the store `τ`. -/
theorem Ready.next (h : Ready m H envs σ i ep) (hgrows : Grows m H m₁ H₁) (henvs : envs <+: envs₁)
    (hstores : Stores m₁ H₁ envs₁ τ) : Ready m₁ H₁ envs₁ τ i ep :=
  ⟨hgrows.part, h.constants.sub hgrows.sub, hstores, getElem?_of_prefix henvs h.env⟩

/-! ## Analysis before evaluation -/

/-- No expression is read at `scheme_null`. -/
theorem Reads.ne_null (h : Reads ext H p e) (hc : Constants H) : p ≠ schemeNull := by
  rintro rfl
  obtain ⟨t, hnull, ht⟩ := hc.null
  have htype : ∀ t', H.type? schemeNull = some t' → t' = .null ∨ t'.IsExpr := fun t' h => by
    rw [Heap.type?_of_obj? hnull, Option.some.injEq] at h
    exact h ▸ ht
  have hpair : H.type? schemeNull ≠ some .pair := fun h => by
    rcases htype _ h with h | h <;> exact absurd h (by decide)
  cases e <;> rw [Reads] at h
  case const c =>
    rcases h with ⟨⟨t', h, hlit⟩, -⟩ | ⟨k, r, h, -⟩
    · rcases hlit with rfl | rfl | rfl | rfl <;>
        rcases htype _ h with h | h <;> exact absurd h (by decide)
    · exact hpair h.1
  case var x => rcases htype _ h.2 with h | h <;> exact absurd h (by decide)
  case ite => obtain ⟨_, _, _, _, h, -⟩ := h; exact hpair h.1
  case lambda => obtain ⟨_, _, _, _, h, -⟩ := h; exact hpair h.1
  case define => obtain ⟨_, _, h, -⟩ := h; exact hpair h.1
  case defun => obtain ⟨_, _, _, _, _, h, -⟩ := h; exact hpair h.1
  case begin => obtain ⟨_, _, h, -⟩ := h; exact hpair h.1
  case app => obtain ⟨_, _, h, -⟩ := h; exact hpair h.1

/-- A node is not analyzed again. -/
theorem analyze_node (h : Node H p e) (hpart : H.Sub m.heap) :
    Ends (fun n => analyze ext n p) m p m := by
  obtain ⟨t, ht, hexpr⟩ := h.isExpr
  exact Ends.succ (Ends.run_bind (run_schemeType (hpart.type? ht)) (Ends.ite_pos hexpr Ends.pure))

/-- Data and nodes are both analyzed to a node; a node is its own. -/
theorem analyze_ends (h : H.Sub m.heap) (hc : Constants H) (hp : Reads ext H p e ∨ Node H p e) :
    p ≠ schemeNull ∧ ∃ q m' H', Ends (fun n => analyze ext n p) m q m' ∧ AddsNodes m H m' H' ∧
      Node H' q e := by
  rcases hp with hp | hp
  · exact ⟨hp.ne_null hc, analyzes ext e h hc hp⟩
  · exact ⟨hp.ne_null hc, p, m, H, analyze_node hp h, AddsNodes.refl h, hp⟩

/-- **An expression is evaluated as its node is**, by the function for the type of the node. -/
theorem evalsTo_of_node (h : Ready m H envs σ i ep) (hp : Reads ext H p e ∨ Node H p e)
    (ht : ∀ {H q}, Node H q e → H.type? q = some t) (hself : t ≠ .selfEvaluating)
    (hquoted : t ≠ .quotedExpr)
    (hfun : ∀ {m₁ H₁ q}, Ready m₁ H₁ envs σ i ep → Node H₁ q e →
      EvalsTo (fun n => evalFun ext n t q ep) m₁ H₁ envs v τ) :
    EvalsTo (fun n => schemeEval ext n p ep) m H envs v τ := by
  obtain ⟨hne, q, m₁, H₁, hends, hadds, hnode⟩ := analyze_ends h.part h.constants hp
  have hstores := h.stores.grow hadds.heap hadds.sub hadds.bindings hadds.blocks
  refine (hfun (h.next hadds.toGrowsBut (List.prefix_refl _) hstores) hnode).after
    hadds.toGrowsBut (List.prefix_refl _) fun q' m' hfun => ?_
  exact Ends.succ (Ends.ite_neg hne (hends.bind (Ends.run_bind
    (run_schemeType (hadds.part.type? (ht hnode))) (Ends.ite_neg (by simp [hself, hquoted]) hfun))))

/-! ## Values -/

/-- A value other than false is not at `scheme_false`. -/
theorem ValueAt.ne_false (h : ValueAt H envs p v) (hc : Constants H)
    (hv : v ≠ .const schemeFalse) : p ≠ schemeFalse := by
  rintro rfl
  cases v with
  | const c => exact hv (congrArg Value.const (h : schemeFalse = c).symm)
  | closure xs body j =>
    have := hc.false.symm.trans h.1
    simp at this

/-- A closure is not at `scheme_void`. -/
theorem ValueAt.ne_void {xs : List Ptr} {body : List SExpr} {j : ℕ}
    (h : ValueAt H envs p (.closure xs body j)) (hc : Constants H) : p ≠ schemeVoid := by
  rintro rfl
  have := hc.void.symm.trans h.1
  simp at this

/-- There is one environment for each scope. -/
theorem Stores.length (h : Stores m H envs σ) : envs.length = σ.size := by
  obtain ⟨fs, τ, hrep, rfl, hsize, -⟩ := h
  rw [List.length_map, hsize, hrep.size]

/-! ## What is to be shown of a task

A task of the language's semantics, and what the evaluator does with the node that stands for it. -/

/-- Evaluation of a datum or node for `e`. -/
def EvalsExpr (ext : Externals) (σ : Scopes Ptr SValue) (i : ℕ) (e : SExpr) (v : SValue)
    (τ : Scopes Ptr SValue) : Prop :=
  ∀ {m H envs p ep}, Ready m H envs σ i ep → Reads ext H p e ∨ Node H p e →
    EvalsTo (fun n => schemeEval ext n p ep) m H envs v τ

/-- Evaluation of nodes for `es` in sequence. -/
def EvalsSeq (ext : Externals) (σ : Scopes Ptr SValue) (i : ℕ) (es : List SExpr) (v : SValue)
    (τ : Scopes Ptr SValue) : Prop :=
  ∀ {m H envs p ep}, Ready m H envs σ i ep → Nodes H p es →
    EvalsTo (fun n => evalElements ext n p ep) m H envs v τ

/-- Evaluation of nodes for operands, whose values go into pairs after the pair `q`. -/
def EvalsRest (ext : Externals) (σ : Scopes Ptr SValue) (i : ℕ) (es : List SExpr)
    (vs : List SValue) (τ : Scopes Ptr SValue) : Prop :=
  ∀ {m H envs p ep q c t rslt}, Ready m H envs σ i ep → Nodes H p es → q ≠ schemeNull →
    m.heap.obj? q = some ⟨t, .pair c (some schemeNull)⟩ → H.obj? q = none →
    ∃ m' H' envs' r ps, Ends (fun n => evalList ext n rslt q p ep) m rslt m' ∧
      GrowsBut (· = q) m H m' H' ∧ envs <+: envs' ∧ Stores m' H' envs' τ ∧
      m'.heap.obj? q = some ⟨t, .pair c (some r)⟩ ∧ H'.Spine r ps schemeNull ∧
      List.Forall₂ (ValueAt H' envs') ps vs

/-- Evaluation of nodes for all operands. -/
def EvalsArgs (ext : Externals) (σ : Scopes Ptr SValue) (i : ℕ) (es : List SExpr)
    (vs : List SValue) (τ : Scopes Ptr SValue) : Prop :=
  ∀ {m H envs p ep}, Ready m H envs σ i ep → Nodes H p es →
    ∃ m' H' envs' r ps, Ends (fun n => evalList ext n schemeNull schemeNull p ep) m r m' ∧
      Grows m H m' H' ∧ envs <+: envs' ∧ Stores m' H' envs' τ ∧ H'.Spine r ps schemeNull ∧
      List.Forall₂ (ValueAt H' envs') ps vs

/-! ## The rules

One lemma for each rule of the semantics, from what holds of its premises. -/

theorem evalsExpr_const : EvalsExpr ext σ i (.const c) (.const c) σ := by
  intro m H envs p ep h hp
  obtain ⟨hne, q, m₁, H₁, hends, hadds, hnode⟩ := analyze_ends h.part h.constants hp
  have hstores := h.stores.grow hadds.heap hadds.sub hadds.bindings hadds.blocks
  obtain ⟨ht, hcar⟩ := hnode
  have hrun := run_schemeCar (hadds.part.car? hcar)
  refine ⟨c, m₁, H₁, envs, Ends.succ (Ends.ite_neg hne (hends.bind ?_)), hadds.toGrowsBut,
    List.prefix_refl _, hstores, rfl⟩
  rcases ht with ht | ht
  · exact Ends.run_bind (run_schemeType (hadds.part.type? ht)) (Ends.ite_pos (Or.inl rfl)
      (Ends.of_run hrun))
  · exact Ends.run_bind (run_schemeType (hadds.part.type? ht)) (Ends.ite_pos (Or.inr rfl)
      (Ends.of_run hrun))

/-- A variable has the value that its scope sees. -/
theorem evalsExpr_var {x : Ptr} (hv : σ.lookup i x = some v) :
    EvalsExpr ext σ i (.var x) v σ := by
  intro m H envs p ep h hp
  refine evalsTo_of_node h hp (fun hn => hn.1) (by decide) (by decide) fun {m₁ H₁ q} h₁ hn => ?_
  obtain ⟨q', hends, hval⟩ := h₁.stores.lookup h₁.env hv
  exact ⟨q', m₁, H₁, envs, Ends.succ (Ends.run_bind (run_schemeCar (h₁.part.car? hn.2)) hends),
    GrowsBut.refl h₁.part, List.prefix_refl _, h₁.stores, hval⟩

/-- The test decides between the two arms. -/
theorem evalsExpr_ite {e₁ e₂ e₃ : SExpr} {u : SValue} (h₁ : EvalsExpr ext σ i e₁ u τ)
    (h₂ : u ≠ .const schemeFalse → EvalsExpr ext τ i e₂ v υ)
    (h₃ : u = .const schemeFalse → EvalsExpr ext τ i e₃ v υ) :
    EvalsExpr ext σ i (.ite e₁ e₂ e₃) v υ := by
  intro m H envs p ep h hp
  refine evalsTo_of_node h hp (fun hn => hn.1) (by decide) (by decide) fun {m₁ H₁ q} hr hn => ?_
  obtain ⟨-, p₁, arms, p₂, p₃, hcar, hcdr, hcar₂, hcdr₂, hn₁, hn₂, hn₃⟩ := hn
  obtain ⟨q₁, m₂, H₂, envs₂, hends, hgrows, henvs, hstores, hval⟩ := h₁ hr (Or.inr hn₁)
  have hr₂ := hr.next hgrows henvs hstores
  have hbranch : ∀ {q' m'}, Ends (fun n => if q₁ ≠ schemeFalse then schemeEval ext n p₂ ep else
      schemeEval ext n p₃ ep) m₂ q' m' → Ends (fun n => evalFun ext n .ifExpr q ep) m₁ q' m' :=
    fun hb => Ends.succ (Ends.succ (Ends.run_bind (run_schemeCar (hr.part.car? hcar))
      (Ends.run_bind (run_schemeCdr (hr.part.cdr? hcdr)) (Ends.run_bind
        (run_schemeCar (hr.part.car? hcar₂)) (Ends.run_bind (run_schemeCdr (hr.part.cdr? hcdr₂))
          (hends.bind hb))))))
  by_cases hu : u = .const schemeFalse
  · subst hu
    exact (h₃ rfl hr₂ (Or.inr (hn₃.sub hgrows.sub))).after hgrows henvs fun q' m' hb =>
      hbranch (Ends.ite_neg (not_not.mpr hval) hb)
  · exact (h₂ hu hr₂ (Or.inr (hn₂.sub hgrows.sub))).after hgrows henvs fun q' m' hb =>
      hbranch (Ends.ite_pos (hval.ne_false hr₂.constants hu) hb)

/-- A procedure keeps the scope in which it was made. -/
theorem evalsExpr_lambda {xs : List Ptr} :
    EvalsExpr ext σ i (.lambda xs es) (.closure xs es i) σ := by
  intro m H envs p ep h hp
  refine evalsTo_of_node h hp (fun hn => hn.1) (by decide) (by decide) fun {m₁ H₁ q} hr hn => ?_
  obtain ⟨-, vars, b, hcar, hcdr, hvars, hne, hb⟩ := hn
  have hpush := GrowsBut.push hr.part (o := ⟨.cpdProc, .cpdProc vars b ep⟩)
  refine ⟨m₁.fresh, _, _, envs, Ends.succ (Ends.run_bind (run_schemeCar (hr.part.car? hcar))
    (Ends.run_bind (run_schemeCdr (hr.part.cdr? hcdr)) (Ends.of_run run_schemeAllocObj))), hpush,
    List.prefix_refl _, hr.stores.grow hpush.heap hpush.sub rfl rfl, ?_⟩
  exact ⟨Heap.type?_of_obj? obj?_insert_fresh, vars, b, ep,
    Heap.cpdProc?_of_obj? obj?_insert_fresh, hr.env, hvars.sub hpush.sub, hne,
    Nodes.sub hpush.sub hb⟩

/-- A value that is defined, in memory that only grew before. -/
theorem evalsTo_define {x : Ptr} (h : Ready m₁ H₁ envs₁ τ i ep) (hgrows : Grows m H m₁ H₁)
    (henvs : envs <+: envs₁) (hval : ValueAt H₁ envs₁ p v)
    (hk : ∀ m', (schemeDefineVar x p ep).run m₁ = some (x, m') → Ends k m x m') :
    EvalsTo k m H envs (.const x) (τ.define i x v) := by
  obtain ⟨m', hrun, hobjs, hstores⟩ := h.stores.define h.env hval (x := x)
  have hheap : m'.heap = m₁.heap := by unfold Memory.heap; rw [hobjs]
  refine ⟨x, m', H₁, envs₁, hk m' hrun, hgrows.trans ⟨fun p o _ hp => ?_, Heap.Sub.refl, ?_,
    fun _ _ _ => rfl⟩, henvs, hstores, rfl⟩
  · rw [hheap, hp]
  · rw [hheap]
    exact h.part

/-- A definition gives its name. -/
theorem evalsExpr_define {x : Ptr} (he : EvalsExpr ext σ i e v τ) :
    EvalsExpr ext σ i (.define x e) (.const x) (τ.define i x v) := by
  intro m H envs p ep h hp
  refine evalsTo_of_node h hp (fun hn => hn.1) (by decide) (by decide) fun {m₁ H₁ q} hr hn => ?_
  obtain ⟨-, p₁, hcar, hcdr, hn₁⟩ := hn
  obtain ⟨q₁, m₂, H₂, envs₂, hends, hgrows, henvs, hstores, hval⟩ := he hr (Or.inr hn₁)
  refine evalsTo_define (hr.next hgrows henvs hstores) hgrows henvs hval fun m' hrun => ?_
  exact Ends.succ (Ends.run_bind (run_schemeCar (hr.part.car? hcar)) (Ends.run_bind
    (run_schemeCdr (hr.part.cdr? hcdr)) (hends.bind (Ends.of_run hrun))))

theorem evalsExpr_defun {x : Ptr} {xs : List Ptr} :
    EvalsExpr ext σ i (.defun x xs es) (.const x) (σ.define i x (.closure xs es i)) := by
  intro m H envs p ep h hp
  refine evalsTo_of_node h hp (fun hn => hn.1) (by decide) (by decide) fun {m₁ H₁ q} hr hn => ?_
  obtain ⟨-, r, vars, b, hcar, hcdr, hcar₂, hcdr₂, hvars, hne, hb⟩ := hn
  have hpush := GrowsBut.push hr.part (o := ⟨.cpdProc, .cpdProc vars b ep⟩)
  have hr₂ := hr.next hpush (List.prefix_refl _) (hr.stores.grow hpush.heap hpush.sub rfl rfl)
  refine evalsTo_define (p := m₁.fresh) hr₂ hpush (List.prefix_refl _) ⟨Heap.type?_of_obj?
    obj?_insert_fresh, vars, b, ep, Heap.cpdProc?_of_obj? obj?_insert_fresh, hr.env,
    hvars.sub hpush.sub, hne, Nodes.sub hpush.sub hb⟩ fun m' hrun => ?_
  exact Ends.succ (Ends.run_bind (run_schemeCdr (hr.part.cdr? hcdr)) (Ends.run_bind
    (run_schemeCar (hr.part.car? hcar₂)) (Ends.run_bind (run_schemeCdr (hr.part.cdr? hcdr₂))
      (Ends.run_bind run_schemeAllocObj (Ends.run_bind (run_schemeCar (hr₂.part.car?
        (hpush.sub.car? hcar))) (Ends.of_run hrun))))))

theorem Nodes.ne_null (hne : es ≠ []) (h : Nodes H p es) : p ≠ schemeNull := by
  cases es with
  | nil => exact absurd rfl hne
  | cons e es => exact h.1

theorem evalsExpr_begin (hes : EvalsSeq ext σ i es v τ) : EvalsExpr ext σ i (.begin es) v τ := by
  intro m H envs p ep h hp
  refine evalsTo_of_node h hp (fun hn => hn.1) (by decide) (by decide) fun {m₁ H₁ q} hr hn => ?_
  exact (hes hr hn.2.2).after (GrowsBut.refl hr.part) (List.prefix_refl _) fun q' m' hk =>
    Ends.succ (Ends.succ (Ends.ite_neg (Nodes.ne_null hn.2.1 hn.2.2) hk))

theorem evalsSeq_last (he : EvalsExpr ext σ i e v τ) : EvalsSeq ext σ i [e] v τ := by
  intro m H envs p ep h hp
  obtain ⟨-, q, r, hcar, hcdr, hn, hr⟩ := hp
  refine (he h (Or.inr hn)).after (GrowsBut.refl h.part) (List.prefix_refl _) fun q' m' hk => ?_
  exact Ends.succ (Ends.run_bind (run_schemeCdr (h.part.cdr? hcdr)) (Ends.ite_pos hr
    (Ends.run_bind (run_schemeCar (h.part.car? hcar)) hk)))

/-- The values before the last one are dropped. -/
theorem evalsSeq_cons {e' : SExpr} {u : SValue} (he : EvalsExpr ext σ i e u τ)
    (hes : EvalsSeq ext τ i (e' :: es) v υ) : EvalsSeq ext σ i (e :: e' :: es) v υ := by
  intro m H envs p ep h hp
  obtain ⟨-, q, r, hcar, hcdr, hn, hrest⟩ := hp
  obtain ⟨q₁, m₁, H₁, envs₁, hends, hgrows, henvs, hstores, -⟩ := he h (Or.inr hn)
  have hr := h.next hgrows henvs hstores
  refine (hes hr (Nodes.sub hgrows.sub hrest)).after hgrows henvs fun q' m' hk => ?_
  exact Ends.succ (Ends.run_bind (run_schemeCdr (h.part.cdr? hcdr)) (Ends.ite_neg hrest.1
    (Ends.run_bind (run_schemeCar (h.part.car? hcar)) (hends.bind (Ends.run_bind
      (run_schemeCdr (hr.part.cdr? (hgrows.sub.cdr? hcdr))) hk)))))

/-! ### Operands -/

theorem evalsRest_nil : EvalsRest ext σ i [] [] σ := by
  intro m H envs p ep q c t rslt h hp hq hqm hqH
  exact ⟨m, H, envs, schemeNull, [], Ends.succ (Ends.ite_pos hp Ends.pure), GrowsBut.refl h.part,
    List.prefix_refl _, h.stores, hqm, rfl, List.Forall₂.nil⟩

theorem evalsArgs_nil : EvalsArgs ext σ i [] [] σ := by
  intro m H envs p ep h hp
  exact ⟨m, H, envs, schemeNull, [], Ends.succ (Ends.ite_pos hp Ends.pure), GrowsBut.refl h.part,
    List.prefix_refl _, h.stores, rfl, List.Forall₂.nil⟩

/-- The store while a list is built behind its back. -/
theorem Ready.link (h : Ready m H envs σ i ep)
    (hq : m.heap.obj? q = some ⟨t, .pair c (some schemeNull)⟩) (hqH : H.obj? q = none) {a : Ptr} :
    Ready (m.link q c a) H envs σ i ep :=
  ⟨sub_link h.part hqH, h.constants,
    (h.stores.grow (Memory.heap_push (o := ⟨.pair, .pair a (some schemeNull)⟩)) Heap.Sub.refl rfl
      rfl).modify (Memory.heap_push _ _ hq), h.env⟩

/-- One operand more, behind those that are evaluated. -/
theorem evalsRest_cons {vs : List SValue} (he : EvalsExpr ext σ i e v τ)
    (hes : EvalsRest ext τ i es vs υ) : EvalsRest ext σ i (e :: es) (v :: vs) υ := by
  intro m H envs p ep q c t rslt h hp hq hqm hqH
  obtain ⟨hne, x, rest, hcar, hcdr, hn, hrest⟩ := hp
  obtain ⟨a, m₁, H₁, envs₁, hends, hgrows, henvs, hstores, hval⟩ := he h (Or.inr hn)
  have hr := h.next hgrows henvs hstores
  have hqm₁ := hgrows.heap _ _ hqm
  have hqH₁ : H₁.obj? q = none := (hgrows.old _ _ hqm).trans hqH
  have hlink := hr.link hqm₁ hqH₁ (a := a)
  obtain ⟨m', H', envs', r, ps, hends', hgrows', henvs', hstores', hp', hspine, hvals⟩ :=
    hes hlink (Nodes.sub hgrows.sub hrest) (hr.constants.fresh_ne_null hr.part) (link_fresh hqm₁)
      (hr.part.none Memory.obj?_fresh)
  obtain ⟨hgrows'', hsub, hqm'⟩ := hgrows.link hqm hgrows' hp'
  have hself := Heap.obj?_insert_self (H := H') (o := ⟨.pair, .pair a (some r)⟩) hp'
  refine ⟨m', _, envs', m₁.fresh, a :: ps, ?_, hgrows'', henvs.trans henvs', ?_, hqm',
    ⟨Heap.type?_of_obj? hself, Heap.car?_of_obj? hself, r, Heap.cdr?_of_obj? hself,
      hspine.sub hsub⟩, List.Forall₂.cons (hval.mono (hgrows'.sub.trans hsub) henvs')
        (hvals.imp fun _ _ hv => hv.mono hsub (List.prefix_refl _))⟩
  · refine Ends.succ (Ends.ite_neg hne (Ends.run_bind (run_schemeCar (h.part.car? hcar))
      (hends.bind (Ends.run_bind run_schemeMakePair (Ends.ite_neg hq (Ends.run_bind (run_link hqm₁)
        ?_))))))
    exact Ends.run_bind (run_schemeCdr (hlink.part.cdr? (hgrows.sub.cdr? hcdr))) hends'
  · exact hstores'.grow Heap.Sub.refl hsub rfl rfl

/-- The first operand makes the first pair. -/
theorem evalsArgs_cons {vs : List SValue} (he : EvalsExpr ext σ i e v τ)
    (hes : EvalsRest ext τ i es vs υ) : EvalsArgs ext σ i (e :: es) (v :: vs) υ := by
  intro m H envs p ep h hp
  obtain ⟨hne, x, rest, hcar, hcdr, hn, hrest⟩ := hp
  obtain ⟨a, m₁, H₁, envs₁, hends, hgrows, henvs, hstores, hval⟩ := he h (Or.inr hn)
  have hr := h.next hgrows henvs hstores
  have hpush := Memory.heap_push (m := m₁) (o := ⟨.pair, .pair a (some schemeNull)⟩)
  have hr₂ : Ready (m₁.push ⟨.pair, .pair a (some schemeNull)⟩) H₁ envs₁ τ i ep :=
    ⟨hr.part.trans hpush, hr.constants, hstores.grow hpush Heap.Sub.refl rfl rfl, hr.env⟩
  obtain ⟨m', H', envs', r, ps, hends', hgrows', henvs', hstores', hp', hspine, hvals⟩ :=
    hes hr₂ (Nodes.sub hgrows.sub hrest) (hr.constants.fresh_ne_null hr.part)
      Memory.obj?_push_fresh (hr.part.none Memory.obj?_fresh)
  obtain ⟨hgrows'', hfresh, hfresh'⟩ := hgrows.first hgrows'
  have hself := Heap.obj?_insert_self (H := H') (o := ⟨.pair, .pair a (some r)⟩) hp'
  have hsub := Heap.sub_insert (o := ⟨.pair, .pair a (some r)⟩) hfresh'
  refine ⟨m', _, envs', m₁.fresh, a :: ps, ?_, hgrows''.join hfresh hfresh' hp',
    henvs.trans henvs', hstores'.grow Heap.Sub.refl hsub rfl rfl,
    ⟨Heap.type?_of_obj? hself, Heap.car?_of_obj? hself, r, Heap.cdr?_of_obj? hself,
      hspine.sub hsub⟩, List.Forall₂.cons (hval.mono (hgrows'.sub.trans hsub) henvs')
        (hvals.imp fun _ _ hv => hv.mono hsub (List.prefix_refl _))⟩
  exact Ends.succ (Ends.ite_neg hne (Ends.run_bind (run_schemeCar (h.part.car? hcar))
    (hends.bind (Ends.run_bind run_schemeMakePair (Ends.ite_pos rfl (Ends.run_bind
      (run_schemeCdr (hr₂.part.cdr? (hgrows.sub.cdr? hcdr))) hends'))))))

/-! ### Calls -/

/-- **A call**: operator, operands, and the body in a new environment inside that of the closure. -/
theorem evalsExpr_app {f : SExpr} {ω : Scopes Ptr SValue} {xs : List Ptr} {body : List SExpr}
    {j : ℕ} {vs : List SValue} (hf : EvalsExpr ext σ i f (.closure xs body j) τ)
    (hargs : EvalsArgs ext τ i es vs υ) (hlen : vs.length = xs.length)
    (hbody : EvalsSeq ext (υ.extend j (bindParams xs vs)) υ.size body v ω) :
    EvalsExpr ext σ i (.app f es) v ω := by
  intro m H envs p ep h hp
  refine evalsTo_of_node h hp (fun hn => hn.1) (by decide) (by decide) fun {m₁ H₁ q} hr hn => ?_
  obtain ⟨-, p₁, rest, hcar, hcdr, hn₁, hrest⟩ := hn
  obtain ⟨proc, m₂, H₂, envs₂, hends, hgrows, henvs, hstores, hval⟩ := hf hr (Or.inr hn₁)
  have hr₂ := hr.next hgrows henvs hstores
  obtain ⟨m₃, H₃, envs₃, args, ps, hends', hgrows', henvs', hstores', hspine, hvals⟩ :=
    hargs hr₂ (Nodes.sub hgrows.sub hrest)
  have hr₃ := hr₂.next hgrows' henvs' hstores'
  obtain ⟨hproc, vars, b, e, hcpd, he, hvars, hne, hb⟩ := hval.mono hgrows'.sub henvs'
  obtain ⟨m₄, hextend, hheap, hstores₄⟩ :=
    hstores'.extend hr₃.part hr₃.constants he hvars hspine hvals hlen
  have hgrows₄ : Grows m₃ H₃ m₄ H₃ :=
    ⟨fun p o _ hp => hheap p o hp, Heap.Sub.refl, hr₃.part.trans hheap, fun _ _ _ => rfl⟩
  have henv : (envs₃ ++ [m₃.fresh])[υ.size]? = some m₃.fresh := by
    rw [← hstores'.length]
    exact List.getElem?_concat_length
  have hr₄ : Ready m₄ H₃ (envs₃ ++ [m₃.fresh]) (υ.extend j (bindParams xs vs)) υ.size m₃.fresh :=
    ⟨hgrows₄.part, hr₃.constants, hstores₄, henv⟩
  refine (hbody hr₄ hb).after (hgrows.trans (hgrows'.trans hgrows₄))
    (henvs.trans (henvs'.trans (List.prefix_append _ _))) fun q' m' hk => ?_
  refine Ends.succ (Ends.succ (Ends.run_bind (run_schemeCar (hr.part.car? hcar)) (hends.bind
    (Ends.ite_neg (hval.ne_void hr₂.constants) (Ends.run_bind (run_schemeCdr
      (hr₂.part.cdr? (hgrows.sub.cdr? hcdr))) (hends'.bind ?_))))))
  exact Ends.succ (Ends.run_bind (run_schemeType (hr₃.part.type? hproc)) (Ends.run_bind
    (run_schemeProc (hr₃.part.cpdProc? hcpd)) (hextend.bind (Ends.succ
      (Ends.ite_neg (Nodes.ne_null hne hb) hk)))))

/-! ## The simulation

The induction over the derivation puts the rules together. -/

/-- What is to be shown of a task. -/
def Simulates (ext : Externals) (σ : Scopes Ptr SValue) (i : ℕ) (task : Task Ptr Ptr)
    (vs : List SValue) (τ : Scopes Ptr SValue) : Prop :=
  match task with
  | .expr e => ∃ v, vs = [v] ∧ EvalsExpr ext σ i e v τ
  | .seq es => ∃ v, vs = [v] ∧ EvalsSeq ext σ i es v τ
  | .args es => EvalsRest ext σ i es vs τ ∧ EvalsArgs ext σ i es vs τ

/-- The simulation of a task with one value. -/
theorem evalsExpr_of_simulates (h : Simulates ext σ i (.expr e) [v] τ) :
    EvalsExpr ext σ i e v τ := by
  obtain ⟨v', hv, h⟩ := h
  rwa [List.singleton_inj.mp hv]

theorem evalsSeq_of_simulates (h : Simulates ext σ i (.seq es) [v] τ) :
    EvalsSeq ext σ i es v τ := by
  obtain ⟨v', hv, h⟩ := h
  rwa [List.singleton_inj.mp hv]

/-- **Evaluation follows the semantics**, rule by rule. -/
theorem simulates {task : Task Ptr Ptr} {vs : List SValue} (h : SEvaluates σ i task vs τ) :
    Simulates ext σ i task vs τ := by
  induction h with
  | const => exact ⟨_, rfl, evalsExpr_const⟩
  | var hv => exact ⟨_, rfl, evalsExpr_var hv⟩
  | iteTrue _ hu _ ihp ihc =>
    exact ⟨_, rfl, evalsExpr_ite (evalsExpr_of_simulates ihp)
      (fun _ => evalsExpr_of_simulates ihc) fun hf => absurd hf hu⟩
  | iteFalse _ _ ihp iha =>
    exact ⟨_, rfl, evalsExpr_ite (evalsExpr_of_simulates ihp) (fun hu => absurd rfl hu)
      fun _ => evalsExpr_of_simulates iha⟩
  | lambda => exact ⟨_, rfl, evalsExpr_lambda⟩
  | define _ ih => exact ⟨_, rfl, evalsExpr_define (evalsExpr_of_simulates ih)⟩
  | defun => exact ⟨_, rfl, evalsExpr_defun⟩
  | begin _ ih => exact ⟨_, rfl, evalsExpr_begin (evalsSeq_of_simulates ih)⟩
  | app _ _ hlen _ ihf ihargs ihbody =>
    exact ⟨_, rfl, evalsExpr_app (evalsExpr_of_simulates ihf) ihargs.2 hlen
      (evalsSeq_of_simulates ihbody)⟩
  | seqLast _ ih => exact ⟨_, rfl, evalsSeq_last (evalsExpr_of_simulates ih)⟩
  | seqCons _ _ ihe ihes =>
    exact ⟨_, rfl, evalsSeq_cons (evalsExpr_of_simulates ihe) (evalsSeq_of_simulates ihes)⟩
  | argsNil => exact ⟨evalsRest_nil, evalsArgs_nil⟩
  | argsCons _ _ ihe ihes =>
    exact ⟨evalsRest_cons (evalsExpr_of_simulates ihe) ihes.1,
      evalsArgs_cons (evalsExpr_of_simulates ihe) ihes.1⟩

/-- **`schemeEval` is correct**: whenever the semantics gives a datum a value and a final store,
`schemeEval` terminates with that value and that store, and the objects there were are the same. -/
theorem schemeEval_correct {v : SValue} (hconst : Constants m.heap)
    (hstores : Stores m m.heap envs σ) (henv : envs[i]? = some ep) (hreads : Reads ext m.heap p e)
    (heval : SEvaluates σ i (.expr e) [v] τ) :
    ∃ q m' envs', Ends (fun n => schemeEval ext n p ep) m q m' ∧ m.heap.Sub m'.heap ∧
      envs <+: envs' ∧ Stores m' m'.heap envs' τ ∧ ValueAt m'.heap envs' q v := by
  obtain ⟨q, m', H', envs', hends, hgrows, henvs, hstores', hval⟩ :=
    evalsExpr_of_simulates (simulates heval) ⟨Heap.Sub.refl, hconst, hstores, henv⟩ (Or.inl hreads)
  exact ⟨q, m', envs', hends, hgrows.heap, henvs, hstores'.grow Heap.Sub.refl hgrows.part rfl rfl,
    hval.mono hgrows.part (List.prefix_refl _)⟩

/-- The objects of `((lambda (x) x) 5)`, with the pair at its head last. -/
def callMemory : Memory :=
  { EnvSys.init.mem with objs := EnvSys.init.mem.objs ++
    [⟨.symbol, .symbol ['l', 'a', 'm', 'b', 'd', 'a']⟩, ⟨.symbol, .symbol ['x']⟩,
     ⟨.integer, .int 5⟩, ⟨.pair, .pair (.obj 7) (some schemeNull)⟩,
     ⟨.pair, .pair (.obj 7) (some schemeNull)⟩, ⟨.pair, .pair (.obj 9) (some (.obj 10))⟩,
     ⟨.pair, .pair (.obj 6) (some (.obj 11))⟩, ⟨.pair, .pair (.obj 8) (some schemeNull)⟩,
     ⟨.pair, .pair (.obj 12) (some (.obj 13))⟩] }

/-- Nothing but NULs after the names of the keywords, and no builtin procedures. -/
def callExternals : Externals :=
  ⟨fun _ _ => '\x00', fun _ _ _ => failure⟩

theorem schemeEval_correct_call :
    ∃ q m' envs', Ends (fun n => schemeEval callExternals n (.obj 14) schemeGlobalEnvironment)
        callMemory q m' ∧ callMemory.heap.Sub m'.heap ∧ [schemeGlobalEnvironment] <+: envs' ∧
      Stores m' m'.heap envs' ((Scopes.mk [⟨fun _ => none, []⟩]).extend 0
        (bindParams [.obj 7] [.const (.obj 8)])) ∧ ValueAt m'.heap envs' q (.const (.obj 8)) := by
  obtain ⟨fs, hrep, henvs, -⟩ := envInv_init
  have hheap : EnvSys.init.mem.heap.Sub callMemory.heap := by
    intro p o hp
    cases p with
    | char c => exact hp
    | obj a => exact (List.getElem?_append_left (List.getElem?_eq_some_iff.mp hp).1).trans hp
  have hstores : Stores callMemory callMemory.heap [schemeGlobalEnvironment]
      ⟨[⟨fun _ => none, []⟩]⟩ :=
    ⟨fs, _, hrep.keep_of_sub hheap rfl rfl, henvs, rfl, fun j => by rcases j with _ | j <;> rfl,
      fun j x => by
      rcases j with _ | j <;> exact Option.Rel.none⟩
  have henv : [schemeGlobalEnvironment][0]? = some schemeGlobalEnvironment := rfl
  have hname : findKeyword callExternals ['l', 'a', 'm', 'b', 'd', 'a'] = some .lambda := by
    decide +kernel
  have hlambda : IsKeyword callExternals callMemory.heap (.obj 6) .lambda := ⟨rfl, _, rfl, hname⟩
  refine schemeEval_correct ⟨⟨.null, rfl, Or.inl rfl⟩, rfl, rfl⟩ hstores henv
    (e := .app (.lambda [.obj 7] [.var (.obj 7)]) [.const (.obj 8)]) ?_ ?_
  · exact ⟨.obj 12, .obj 13, ⟨rfl, rfl, rfl⟩, Or.inl rfl, ⟨.obj 6, .obj 11, .obj 9, .obj 10,
      ⟨rfl, rfl, rfl⟩, hlambda, ⟨rfl, rfl, rfl⟩, ⟨rfl, rfl, _, rfl, rfl⟩, by simp,
      .obj 7, schemeNull, ⟨rfl, rfl, rfl⟩, ⟨rfl, rfl⟩, rfl⟩, .obj 8, schemeNull, ⟨rfl, rfl, rfl⟩,
      Or.inl ⟨⟨.integer, rfl, Or.inl rfl⟩, rfl⟩, rfl⟩
  · exact .app .lambda (.argsCons .const .argsNil) rfl (.seqLast (.var rfl))

end SchemeOs
