import SchemeOs.Interpreter.Growth
import SchemeOs.Interpreter.Nodes

/-!
# Interpreter/Analysis — analysis turns data into nodes that stand for them

Every form has its lemma: analysis of the datum ends with a node that stands for the expression
which the datum reads as.  The lists of nodes are built in place, so the first pair of a sequence
joins the part of the memory that is spoken of only when it is complete and has its type.
-/

namespace SchemeOs

variable {ext : Externals} {m m' m'' : Memory} {H H' H'' : Heap} {p q r c x : Ptr} {o : Obj}
  {t : SchemeType} {e : SExpr} {es : List SExpr}

/-- Memory only grew, and no environment changed. -/
structure AddsNodes (m : Memory) (H : Heap) (m' : Memory) (H' : Heap) : Prop
    extends GrowsBut (fun _ => False) m H m' H' where
  bindings : m'.bindings = m.bindings
  blocks : m'.blocks = m.blocks

namespace AddsNodes

theorem heap (h : AddsNodes m H m' H') : m.heap.Sub m'.heap := h.toGrowsBut.heap

theorem refl (h : H.Sub m.heap) : AddsNodes m H m H := ⟨GrowsBut.refl h, rfl, rfl⟩

theorem trans (h : AddsNodes m H m' H') (h' : AddsNodes m' H' m'' H'') : AddsNodes m H m'' H'' :=
  ⟨h.toGrowsBut.trans h'.toGrowsBut, h'.bindings.trans h.bindings, h'.blocks.trans h.blocks⟩

/-- A new object. -/
theorem push (h : H.Sub m.heap) : AddsNodes m H (m.push o) (H.insert m.fresh o) :=
  ⟨GrowsBut.push h, rfl, rfl⟩

/-- An object that was already there becomes part of the nodes. -/
theorem join (h : AddsNodes m H m' H') (hp : m.heap.obj? p = none) (hpH : H'.obj? p = none)
    (hp' : m'.heap.obj? p = some o) : AddsNodes m H m' (H'.insert p o) :=
  ⟨h.toGrowsBut.join hp hpH hp', h.bindings, h.blocks⟩

/-- A change of an object that belongs neither to the old heap nor to the nodes. -/
theorem modify (h : AddsNodes m H m' H') (hp : m.heap.obj? p = none) (hpH : H'.obj? p = none)
    {f : Obj → Obj} : AddsNodes m H (m'.modify p f) H' :=
  ⟨h.toGrowsBut.modify hp hpH, Memory.bindings_modify.trans h.bindings,
    Memory.blocks_modify.trans h.blocks⟩

end AddsNodes

/-! ## Sequences

The loop over the elements of a list links one new pair after another.  Its invariant is about the
elements that have been analyzed, whatever is pushed behind them. -/

section Sequences

variable {α : Type} {R N : Heap → Ptr → α → Prop} {x : α} {xs : List α}

/-- Analysis of a datum that is `x` by `R` ends with a node that is `x` by `N`. -/
def AnalyzesAs (ext : Externals) (R N : Heap → Ptr → α → Prop) (x : α) : Prop :=
  ∀ {H : Heap} {m : Memory} {p : Ptr}, H.Sub m.heap → Constants H → R H p x →
    ∃ q m' H', Ends (fun n => analyze ext n p) m q m' ∧ AddsNodes m H m' H' ∧ N H' q x

/-- What is so in a heap is so in larger ones. -/
def Persists (R : Heap → Ptr → α → Prop) : Prop :=
  ∀ ⦃H H' p x⦄, H.Sub H' → R H p x → R H' p x

/-- The elements of the list at `p`, one by one. -/
def ListOf (R : Heap → Ptr → α → Prop) (H : Heap) : Ptr → List α → Prop
  | p, [] => p = schemeNull
  | p, x :: xs => ∃ q r, IsPair H p q r ∧ R H q x ∧ ListOf R H r xs

/-- The nodes in the list at `p`, one by one. -/
def NodesOf (N : Heap → Ptr → α → Prop) (H : Heap) : Ptr → List α → Prop
  | p, [] => p = schemeNull
  | p, x :: xs => p ≠ schemeNull ∧ ∃ q r, H.car? p = some q ∧ H.cdr? p = some r ∧ N H q x ∧
      NodesOf N H r xs

/-- A list of things that persist persists itself. -/
theorem ListOf.sub (hR : Persists R) (hsub : H.Sub H') (h : ListOf R H p xs) :
    ListOf R H' p xs := by
  induction xs generalizing p with
  | nil => exact h
  | cons x xs ih =>
    obtain ⟨q, r, hpair, hx, hrest⟩ := h
    exact ⟨q, r, hpair.sub hsub, hR hsub hx, ih hrest⟩

theorem NodesOf.sub (hN : Persists N) (hsub : H.Sub H') (h : NodesOf N H p xs) :
    NodesOf N H' p xs := by
  induction xs generalizing p with
  | nil => exact h
  | cons x xs ih =>
    obtain ⟨hne, q, r, hcar, hcdr, hx, hrest⟩ := h
    exact ⟨hne, q, r, hsub.car? hcar, hsub.cdr? hcdr, hN hsub hx, ih hrest⟩

theorem IsPair.ne_null (h : IsPair H p q r) (hc : Constants H) : p ≠ schemeNull :=
  hc.ne_null_of_car? h.2.1

/-- A new address is not that of `scheme_null`. -/
theorem Constants.fresh_ne_null (hc : Constants H) (h : H.Sub m.heap) : m.fresh ≠ schemeNull := by
  obtain ⟨_, hnull, -⟩ := hc.null
  exact (Memory.ne_fresh (h _ _ hnull)).symm

/-- **The loop of `analyzeSequence`**: the pairs after `q` are built one by one. -/
theorem analyzeElements_ends (hR : Persists R) (hN : Persists N)
    (hxs : ∀ x ∈ xs, AnalyzesAs ext R N x) {seq expr : Ptr} (h : H.Sub m.heap)
    (hc : Constants H) (hseq : ListOf R H seq xs)
    (hexpr : expr ≠ schemeNull) (hq : m.heap.obj? q = some ⟨t, .pair c (some schemeNull)⟩)
    (hqH : H.obj? q = none) :
    ∃ m' H' r, Ends (fun n => analyzeElements ext n expr q seq) m expr m' ∧
      GrowsBut (· = q) m H m' H' ∧ m'.bindings = m.bindings ∧ m'.blocks = m.blocks ∧
      m'.heap.obj? q = some ⟨t, .pair c (some r)⟩ ∧ NodesOf N H' r xs := by
  induction xs generalizing H m q c t seq with
  | nil =>
    obtain rfl : seq = schemeNull := hseq
    exact ⟨m, H, schemeNull, Ends.succ (Ends.ite_pos rfl Ends.pure), GrowsBut.refl h, rfl, rfl, hq,
      rfl⟩
  | cons x xs ih =>
    obtain ⟨d, rest, hpair, hx, hrest⟩ := hseq
    obtain ⟨a, m₁, H₁, hends, hadds, hnode⟩ := hxs x List.mem_cons_self h hc hx
    have hq₁ := hadds.heap _ _ hq
    have hqH₁ : H₁.obj? q = none := (hadds.old _ _ hq).trans hqH
    have hsub := sub_link (c := c) (a := a) hadds.part hqH₁
    obtain ⟨m', H', r, hends', hgrows', hbind, hblocks, hp', hnodes⟩ :=
      ih (fun y hy => hxs y (List.mem_cons_of_mem _ hy)) hsub (hc.sub hadds.sub)
        (hrest.sub hR hadds.sub) (link_fresh hq₁) (hadds.part.none Memory.obj?_fresh)
    obtain ⟨hgrows, hsub', hq'⟩ := hadds.toGrowsBut.link hq hgrows' hp'
    have hself := Heap.obj?_insert_self (H := H') (o := ⟨.pair, .pair a (some r)⟩) hp'
    refine ⟨m', _, m₁.fresh, ?_, hgrows, ?_, ?_, hq', ?_⟩
    · refine Ends.succ (Ends.ite_neg (hpair.ne_null hc) (Ends.run_bind
        (run_schemeCar (h.car? hpair.2.1)) (hends.bind (Ends.run_bind run_schemeMakePair
          (Ends.ite_neg hexpr (Ends.run_bind (run_link hq₁) ?_))))))
      exact Ends.run_bind (run_schemeCdr (hsub.cdr? (hadds.sub.cdr? hpair.2.2))) hends'
    · rw [hbind, bindings_link, hadds.bindings]
    · rw [hblocks, blocks_link, hadds.blocks]
    · exact ⟨hc.fresh_ne_null (h.trans hadds.heap), a, r, Heap.car?_of_obj? hself,
        Heap.cdr?_of_obj? hself, hN (hgrows'.sub.trans hsub') hnode, hnodes.sub hN hsub'⟩

/-- **A sequence** of nodes is built; only its first pair does not belong to the part yet, since
some callers change its type. -/
theorem analyzeSequence_ends (hR : Persists R) (hN : Persists N)
    (hxs : ∀ x ∈ xs, AnalyzesAs ext R N x) (hne : xs ≠ []) {seq : Ptr}
    (h : H.Sub m.heap) (hc : Constants H) (hseq : ListOf R H seq xs) :
    ∃ p m' H' a r, Ends (fun n => analyzeSequence ext n seq) m p m' ∧ AddsNodes m H m' H' ∧
      m.heap.obj? p = none ∧ H'.obj? p = none ∧
      m'.heap.obj? p = some ⟨.sequenceExpr, .pair a (some r)⟩ ∧
      ∀ H'', H'.Sub H'' → H''.car? p = some a → H''.cdr? p = some r → NodesOf N H'' p xs := by
  cases xs with
  | nil => exact absurd rfl hne
  | cons x xs =>
    obtain ⟨d, rest, hpair, hx, hrest⟩ := hseq
    obtain ⟨a, m₁, H₁, hends, hadds, hnode⟩ := hxs x List.mem_cons_self h hc hx
    have hsub := hadds.part.trans (Memory.heap_push (o := ⟨.pair, .pair a (some schemeNull)⟩))
    have hnull := hc.fresh_ne_null (h.trans hadds.heap)
    obtain ⟨m₃, H', r, hends', hgrows', hbind, hblocks, hp₃, hnodes⟩ :=
      analyzeElements_ends hR hN (fun y hy => hxs y (List.mem_cons_of_mem _ hy)) hsub
        (hc.sub hadds.sub) (hrest.sub hR hadds.sub) hnull Memory.obj?_push_fresh
        (hadds.part.none Memory.obj?_fresh)
    obtain ⟨hgrows, hp, hpH'⟩ := hadds.toGrowsBut.first hgrows'
    have hadds' : AddsNodes m H m₃ H' :=
      ⟨hgrows, hbind.trans hadds.bindings, hblocks.trans hadds.blocks⟩
    refine ⟨m₁.fresh, m₃.modify m₁.fresh fun o => { o with type := .sequenceExpr }, H', a, r, ?_,
      hadds'.modify hp hpH', hp, hpH', Memory.obj?_modify_self hp₃, fun H'' hsub' hcar hcdr => ?_⟩
    · refine Ends.succ (Ends.bind ?_ (Ends.run_bind (run_schemeSetType hp₃) Ends.pure))
      refine Ends.succ (Ends.ite_neg (hpair.ne_null hc) (Ends.run_bind
        (run_schemeCar (h.car? hpair.2.1)) (hends.bind (Ends.run_bind run_schemeMakePair
          (Ends.ite_pos rfl (Ends.run_bind (run_schemeCdr (hsub.cdr?
            (hadds.sub.cdr? hpair.2.2))) hends'))))))
    · exact ⟨hnull, a, r, hcar, hcdr, hN (hgrows'.sub.trans hsub') hnode, hnodes.sub hN hsub'⟩

/-- A sequence that is part of a larger node. -/
theorem analyzeSequence_nodes (hR : Persists R) (hN : Persists N)
    (hxs : ∀ x ∈ xs, AnalyzesAs ext R N x) (hne : xs ≠ []) {seq : Ptr}
    (h : H.Sub m.heap) (hc : Constants H) (hseq : ListOf R H seq xs) :
    ∃ p m' H', Ends (fun n => analyzeSequence ext n seq) m p m' ∧ AddsNodes m H m' H' ∧
      NodesOf N H' p xs := by
  obtain ⟨p, m', H', a, r, hends, hadds, hp, hpH, hp', hnodes⟩ :=
    analyzeSequence_ends hR hN hxs hne h hc hseq
  have hself := Heap.obj?_insert_self (H := H') (o := ⟨.sequenceExpr, .pair a (some r)⟩) hp'
  exact ⟨p, m', _, hends, hadds.join hp hpH hp', hnodes _ (Heap.sub_insert hpH)
    (Heap.car?_of_obj? hself) (Heap.cdr?_of_obj? hself)⟩

/-- A sequence whose first pair gets the type `t'`. -/
theorem analyzeSequence_retyped (hR : Persists R) (hN : Persists N)
    (hxs : ∀ x ∈ xs, AnalyzesAs ext R N x) (hne : xs ≠ []) {seq : Ptr}
    (h : H.Sub m.heap) (hc : Constants H) (hseq : ListOf R H seq xs)
    (t' : SchemeType) :
    ∃ p m₁ m' H', Ends (fun n => analyzeSequence ext n seq) m p m₁ ∧
      (schemeSetType p t').run m₁ = some ((), m') ∧ AddsNodes m H m' H' ∧ H'.type? p = some t' ∧
      NodesOf N H' p xs := by
  obtain ⟨p, m₁, H₁, a, r, hends, hadds, hp, hpH, hp', hnodes⟩ :=
    analyzeSequence_ends hR hN hxs hne h hc hseq
  have hself := Heap.obj?_insert_self (H := H₁) (o := ⟨t', .pair a (some r)⟩) hp'
  exact ⟨p, m₁, _, _, hends, run_schemeSetType hp', (hadds.modify hp hpH).join hp hpH
    (Memory.obj?_modify_self hp'), Heap.type?_of_obj? hself, hnodes _ (Heap.sub_insert hpH)
    (Heap.car?_of_obj? hself) (Heap.cdr?_of_obj? hself)⟩

end Sequences

/-- Analysis of a datum that reads as `e` ends with a node that stands for `e`. -/
def Analyzes (ext : Externals) (e : SExpr) : Prop :=
  ∀ {H : Heap} {m : Memory} {p : Ptr}, H.Sub m.heap → Constants H → Reads ext H p e →
    ∃ q m' H', Ends (fun n => analyze ext n p) m q m' ∧ AddsNodes m H m' H' ∧ Node H' q e

theorem persists_reads : Persists (Reads ext) := fun _ _ _ _ hsub h => h.sub hsub

theorem persists_node : Persists Node := fun _ _ _ _ hsub h => h.sub hsub

/-- To read as all expressions is to be a list of what reads as each. -/
theorem readsAll_iff : ReadsAll ext H p es ↔ ListOf (Reads ext) H p es := by
  induction es generalizing p with
  | nil => exact Iff.rfl
  | cons e es ih => simp only [ReadsAll, ListOf, ih]

/-- Nodes are a list of the node of each expression. -/
theorem nodes_iff : Nodes H p es ↔ NodesOf Node H p es := by
  induction es generalizing p with
  | nil => exact Iff.rfl
  | cons e es ih => simp only [Nodes, NodesOf, ih]

/-! ## The forms -/

/-- A pair with a keyword at its head goes to the handler of the keyword. -/
theorem analyze_keyword {k : Keyword} (h : H.Sub m.heap) (hpair : IsPair H p x r)
    (hk : IsKeyword ext H x k) (hends : Ends (fun n => analyzeKeyword ext n k p) m q m') :
    Ends (fun n => analyze ext n p) m q m' := by
  obtain ⟨ht, name, hname, hfind⟩ := hk
  refine Ends.succ (Ends.run_bind (run_schemeType (h.type? hpair.1)) (Ends.ite_neg (by decide)
    (Ends.run_bind (run_schemeCar (h.car? hpair.2.1)) (Ends.run_bind (run_schemeType (h.type? ht))
      (Ends.run_bind (run_schemeSymbolVal (h.symbolVal? hname)) ?_)))))
  rw [hfind]
  exact hends

/-- Any other pair is an application. -/
theorem analyze_application (h : H.Sub m.heap) (hpair : IsPair H p x r)
    (hx : IsOperator ext H x) (hends : Ends (fun n => analyzeApplication ext n p) m q m') :
    Ends (fun n => analyze ext n p) m q m' := by
  refine Ends.succ (Ends.run_bind (run_schemeType (h.type? hpair.1)) (Ends.ite_neg (by decide)
    (Ends.run_bind (run_schemeCar (h.car? hpair.2.1)) ?_)))
  rcases hx with ht | ⟨ht, name, hname, hfind⟩
  · exact Ends.run_bind (run_schemeType (h.type? ht)) hends
  · refine Ends.run_bind (run_schemeType (h.type? ht))
      (Ends.run_bind (run_schemeSymbolVal (h.symbolVal? hname)) ?_)
    rw [hfind]
    exact hends

/-- A literal, or a quoted datum. -/
theorem analyzes_const (v : Ptr) : Analyzes ext (.const v) := by
  intro H m p h hc hp
  rcases hp with ⟨⟨t, ht, hlit⟩, rfl⟩ | ⟨k, r, hpair, hk, hr⟩
  · refine ⟨m.fresh, _, _, ?_, AddsNodes.push h (o := ⟨.selfEvaluating, .pair v none⟩), ?_⟩
    · refine Ends.succ (Ends.run_bind (run_schemeType (h.type? ht)) (Ends.ite_neg ?_ ?_))
      · rcases hlit with rfl | rfl | rfl | rfl <;> decide
      · rcases hlit with rfl | rfl | rfl | rfl <;> exact Ends.of_run run_schemeAllocObj
    · exact ⟨Or.inl (Heap.type?_of_obj? obj?_insert_fresh), Heap.car?_of_obj? obj?_insert_fresh⟩
  · refine ⟨m.fresh, _, _, analyze_keyword h hpair hk (Ends.succ ?_),
      AddsNodes.push h (o := ⟨.quotedExpr, .pair v none⟩), ?_⟩
    · exact Ends.run_bind (run_schemeCdr (h.cdr? hpair.2.2)) (Ends.run_bind
        (run_schemeCar (h.car? hr.2.1)) (Ends.of_run run_schemeAllocObj))
    · exact ⟨Or.inr (Heap.type?_of_obj? obj?_insert_fresh), Heap.car?_of_obj? obj?_insert_fresh⟩

theorem analyzes_var (v : Ptr) : Analyzes ext (.var v) := by
  intro H m p h hc hp
  obtain ⟨rfl, ht⟩ := hp
  refine ⟨m.fresh, _, _, ?_, AddsNodes.push h (o := ⟨.variableExpr, .pair v none⟩),
    Heap.type?_of_obj? obj?_insert_fresh, Heap.car?_of_obj? obj?_insert_fresh⟩
  exact Ends.succ (Ends.run_bind (run_schemeType (h.type? ht)) (Ends.ite_neg (by decide)
    (Ends.of_run run_schemeAllocObj)))

/-- The operator and the operands become one list of nodes. -/
theorem analyzes_app {f : SExpr} (hf : Analyzes ext f) (hes : ∀ e ∈ es, Analyzes ext e) :
    Analyzes ext (.app f es) := by
  intro H m p h hc hp
  obtain ⟨k, r, hpair, hk, hkf, hr⟩ := hp
  have hall : ∀ e ∈ f :: es, Analyzes ext e := by
    intro e he
    rcases List.mem_cons.mp he with rfl | he
    · exact hf
    · exact hes e he
  obtain ⟨q, m₁, m', H', hends, hset, hgrows, ht, hne, a, b, hcar, hcdr, hnode, hnodes⟩ :=
    analyzeSequence_retyped persists_reads persists_node hall (by simp) h hc
      ⟨k, r, hpair, hkf, readsAll_iff.mp hr⟩ .applicationExpr
  refine ⟨q, m', H', analyze_application h hpair hk (Ends.succ (hends.bind (Ends.run_bind hset
    Ends.pure))), hgrows, ht, a, b, hcar, hcdr, hnode, nodes_iff.mpr hnodes⟩

theorem analyzes_begin (hes : ∀ e ∈ es, Analyzes ext e) : Analyzes ext (.begin es) := by
  intro H m p h hc hp
  obtain ⟨k, r, hpair, hk, hne, hr⟩ := hp
  obtain ⟨q, m₁, m', H', hends, hset, hgrows, ht, hnodes⟩ :=
    analyzeSequence_retyped persists_reads persists_node hes hne h hc (readsAll_iff.mp hr)
      .beginExpr
  exact ⟨q, m', H', analyze_keyword h hpair hk (Ends.succ (Ends.succ (Ends.run_bind
    (run_schemeCdr (h.cdr? hpair.2.2)) (hends.bind (Ends.run_bind hset Ends.pure))))), hgrows,
    ht, hne, nodes_iff.mpr hnodes⟩

/-- The formals are kept, and the body is analyzed. -/
theorem analyzes_lambda {xs : List Ptr} (hes : ∀ e ∈ es, Analyzes ext e) :
    Analyzes ext (.lambda xs es) := by
  intro H m p h hc hp
  obtain ⟨k, r, vars, b, hpair, hk, hr, hvars, hne, hb⟩ := hp
  obtain ⟨q, m', H', hends, hgrows, hnodes⟩ := analyzeSequence_nodes persists_reads persists_node
    hes hne h hc (readsAll_iff.mp hb)
  have hpush := AddsNodes.push hgrows.part (o := ⟨.lambdaExpr, .pair vars (some q)⟩)
  refine ⟨m'.fresh, _, _, analyze_keyword h hpair hk (Ends.succ (Ends.succ (Ends.run_bind
    (run_schemeCdr (h.cdr? hpair.2.2)) (Ends.run_bind (run_schemeCar (h.car? hr.2.1))
      (Ends.run_bind (run_schemeCdr (h.cdr? hr.2.2)) (hends.bind
        (Ends.of_run run_schemeAllocObj))))))), hgrows.trans hpush, ?_⟩
  exact ⟨Heap.type?_of_obj? obj?_insert_fresh, vars, q, Heap.car?_of_obj? obj?_insert_fresh,
    Heap.cdr?_of_obj? obj?_insert_fresh, hvars.sub (hgrows.sub.trans hpush.sub), hne,
    Nodes.sub hpush.sub (nodes_iff.mpr hnodes)⟩

theorem analyzes_define (v : Ptr) (he : Analyzes ext e) : Analyzes ext (.define v e) := by
  intro H m p h hc hp
  obtain ⟨k, p₁, ⟨hp, hpk, r, hpr, hr, hrv, s, hrs, hs, hsp, u, hsu, rfl⟩, hk, hv, hp₁⟩ := hp
  obtain ⟨q, m', H', hends, hgrows, hnode⟩ := he h hc hp₁
  have hpush := AddsNodes.push hgrows.part (o := ⟨.defvarExpr, .pair v (some q)⟩)
  refine ⟨m'.fresh, _, _, analyze_keyword h ⟨hp, hpk, hpr⟩ hk (Ends.succ (Ends.succ (Ends.run_bind
    (run_schemeCdr (h.cdr? hpr)) (Ends.run_bind (run_schemeCar (h.car? hrv)) (Ends.run_bind
      (run_schemeType (h.type? hv)) (Ends.run_bind (run_schemeCdr (h.cdr? hrs)) (Ends.run_bind
        (run_schemeCar (h.car? hsp)) (hends.bind (Ends.of_run run_schemeAllocObj))))))))),
    hgrows.trans hpush, ?_⟩
  exact ⟨Heap.type?_of_obj? obj?_insert_fresh, q, Heap.car?_of_obj? obj?_insert_fresh,
    Heap.cdr?_of_obj? obj?_insert_fresh, hnode.sub hpush.sub⟩

/-- The definition of a procedure gives the node of a `lambda` inside of that of a definition. -/
theorem analyzes_defun (v : Ptr) {xs : List Ptr} (hes : ∀ e ∈ es, Analyzes ext e) :
    Analyzes ext (.defun v xs es) := by
  intro H m p h hc hp
  obtain ⟨k, r, head, vars, b, hpair, hk, hr, hhead, hvars, hne, hb⟩ := hp
  obtain ⟨q, m', H', hends, hgrows, hnodes⟩ := analyzeSequence_nodes persists_reads persists_node
    hes hne h hc (readsAll_iff.mp hb)
  have hpush := AddsNodes.push hgrows.part (o := ⟨.pair, .pair vars (some q)⟩)
  have hpush' := AddsNodes.push hpush.part (o := ⟨.defunExpr, .pair v (some m'.fresh)⟩)
  refine ⟨_, _, _, analyze_keyword h hpair hk (Ends.succ (Ends.succ (Ends.run_bind
    (run_schemeCdr (h.cdr? hpair.2.2)) (Ends.run_bind (run_schemeCar (h.car? hr.2.1))
      (Ends.run_bind (run_schemeType (h.type? hhead.1)) (Ends.run_bind
        (run_schemeCar (h.car? hhead.2.1)) (Ends.run_bind (run_schemeCdr (h.cdr? hhead.2.2))
          (Ends.run_bind (run_schemeCdr (h.cdr? hr.2.2)) (hends.bind (Ends.run_bind
            run_schemeMakePair (Ends.of_run run_schemeAllocObj))))))))))),
    hgrows.trans (hpush.trans hpush'), ?_⟩
  have hpairs := hpush'.sub _ _ (obj?_insert_fresh (H := H') (m := m')
    (o := ⟨.pair, .pair vars (some q)⟩))
  exact ⟨Heap.type?_of_obj? obj?_insert_fresh, m'.fresh, vars, q,
    Heap.car?_of_obj? obj?_insert_fresh, Heap.cdr?_of_obj? obj?_insert_fresh,
    Heap.car?_of_obj? hpairs, Heap.cdr?_of_obj? hpairs,
    hvars.sub (hgrows.sub.trans (hpush.sub.trans hpush'.sub)), hne,
    Nodes.sub (hpush.sub.trans hpush'.sub) (nodes_iff.mpr hnodes)⟩

/-- `_analyze_if`, with both arms: the node has the nodes of the test and of the arms. -/
theorem analyze_if {α : Type} {R N : Heap → Ptr → α → Prop} (hR : Persists R) (hN : Persists N)
    (hne : ∀ {H q x}, Constants H → N H q x → q ≠ schemeVoid) {x₁ x₂ x₃ : α}
    (h₁ : AnalyzesAs ext R N x₁) (h₂ : AnalyzesAs ext R N x₂) (h₃ : AnalyzesAs ext R N x₃)
    {k p₁ p₂ p₃ : Ptr} (h : H.Sub m.heap) (hc : Constants H)
    (hp : H.Spine p [k, p₁, p₂, p₃] schemeNull) (hk : IsKeyword ext H k .if) (hp₁ : R H p₁ x₁)
    (hp₂ : R H p₂ x₂) (hp₃ : R H p₃ x₃) :
    ∃ q m' H', Ends (fun n => analyze ext n p) m q m' ∧ AddsNodes m H m' H' ∧
      H'.type? q = some .ifExpr ∧ ∃ q₁ arms q₂ q₃, H'.car? q = some q₁ ∧ H'.cdr? q = some arms ∧
        H'.car? arms = some q₂ ∧ H'.cdr? arms = some q₃ ∧ N H' q₁ x₁ ∧ N H' q₂ x₂ ∧ N H' q₃ x₃ := by
  obtain ⟨hp, hpk, r₁, hpr, hr₁, hc₁, r₂, hd₁, hr₂, hc₂, r₃, hd₂, hr₃, hc₃, u, hd₃, rfl⟩ := hp
  obtain ⟨q₁, m₁, H₁, hends₁, hg₁, hn₁⟩ := h₁ h hc hp₁
  obtain ⟨q₂, m₂, H₂, hends₂, hg₂, hn₂⟩ := h₂ hg₁.part (hc.sub hg₁.sub) (hR hg₁.sub hp₂)
  have hsub₂ := hg₁.sub.trans hg₂.sub
  obtain ⟨q₃, m₃, H₃, hends₃, hg₃, hn₃⟩ := h₃ hg₂.part (hc.sub hsub₂) (hR hsub₂ hp₃)
  have hall := hg₁.trans (hg₂.trans hg₃)
  have hpush := AddsNodes.push hg₃.part (o := ⟨.pair, .pair q₂ (some q₃)⟩)
  have hpush' := AddsNodes.push hpush.part (o := ⟨.ifExpr, .pair q₁ (some m₃.fresh)⟩)
  have hvoid : ¬ (q₁ = schemeVoid ∨ q₂ = schemeVoid ∨ q₃ = schemeVoid) := by
    rintro (hv | hv | hv)
    · exact hne (hc.sub hg₁.sub) hn₁ hv
    · exact hne (hc.sub hsub₂) hn₂ hv
    · exact hne (hc.sub hall.sub) hn₃ hv
  have hs₁ := h.trans hg₁.heap
  have hs₂ := hs₁.trans hg₂.heap
  refine ⟨(m₃.push ⟨.pair, .pair q₂ (some q₃)⟩).fresh, _, _, analyze_keyword h ⟨hp, hpk, hpr⟩ hk
    (Ends.succ (Ends.succ (Ends.run_bind (run_schemeCdr (h.cdr? hpr))
      (Ends.run_bind (run_schemeType (h.type? hr₁)) (Ends.ite_pos rfl
      (Ends.run_bind (run_schemeCar (h.car? hc₁)) (hends₁.bind (Ends.run_bind
        (run_schemeCdr (hs₁.cdr? hd₁)) (Ends.run_bind (run_schemeType (hs₁.type? hr₂))
          (Ends.ite_pos rfl ?_)))))))))), hall.trans (hpush.trans hpush'), ?_⟩
  · refine Ends.run_bind (run_schemeCar (hs₁.car? hc₂)) (hends₂.bind (Ends.run_bind
      (run_schemeCdr (hs₂.cdr? hd₂)) (Ends.run_bind (run_schemeType (hs₂.type? hr₃))
        (Ends.ite_pos rfl (Ends.run_bind (run_schemeCdr (hs₂.cdr? hd₃)) (Ends.ite_neg (by simp)
          (Ends.run_bind (run_schemeCar (hs₂.car? hc₃)) (hends₃.bind ?_))))))))
    exact Ends.ite_neg hvoid (Ends.run_bind run_schemeMakePair (Ends.of_run run_schemeAllocObj))
  · have harms := hpush'.sub _ _ (obj?_insert_fresh (H := H₃) (m := m₃)
      (o := ⟨.pair, .pair q₂ (some q₃)⟩))
    have hs₃ := hpush.sub.trans hpush'.sub
    exact ⟨Heap.type?_of_obj? obj?_insert_fresh, q₁, m₃.fresh, q₂, q₃,
      Heap.car?_of_obj? obj?_insert_fresh, Heap.cdr?_of_obj? obj?_insert_fresh,
      Heap.car?_of_obj? harms, Heap.cdr?_of_obj? harms,
      hN (hg₂.sub.trans (hg₃.sub.trans hs₃)) hn₁, hN (hg₃.sub.trans hs₃) hn₂, hN hs₃ hn₃⟩

theorem analyzes_ite {e₁ e₂ e₃ : SExpr} (h₁ : Analyzes ext e₁) (h₂ : Analyzes ext e₂)
    (h₃ : Analyzes ext e₃) : Analyzes ext (.ite e₁ e₂ e₃) := by
  intro H m p h hc hp
  obtain ⟨k, p₁, p₂, p₃, hs, hk, hp₁, hp₂, hp₃⟩ := hp
  exact analyze_if persists_reads persists_node (fun hc hn => hn.ne_void hc) h₁ h₂ h₃ h hc hs hk
    hp₁ hp₂ hp₃

/-- **Analysis ends for every datum that reads as an expression**, with a node that stands for
it. -/
theorem analyzes (ext : Externals) : ∀ e : SExpr, Analyzes ext e
  | .const v => analyzes_const v
  | .var v => analyzes_var v
  | .ite p c a => analyzes_ite (analyzes ext p) (analyzes ext c) (analyzes ext a)
  | .lambda _ body => analyzes_lambda fun e _ => analyzes ext e
  | .define v e => analyzes_define v (analyzes ext e)
  | .defun v _ body => analyzes_defun v fun e _ => analyzes ext e
  | .begin es => analyzes_begin fun e _ => analyzes ext e
  | .app f es => analyzes_app (analyzes ext f) fun e _ => analyzes ext e

end SchemeOs
