import SchemeOs.Interpreter.Connectives

/-!
# Interpreter/Agreement — the interpreter and the compiled code

Evaluation of a node and execution of the code take the same branches, since both know only one
false value.  They come to the same value unless it is that of an `and` or an `or` whose last
evaluated operand is neither `#t` nor `#f`, where the interpreter has `#t`, or a constant that the C
file gives back as another: of a number too large for its tag the compiled code keeps the low bits.
-/

namespace SchemeOs

variable {ext : Externals} {m m₁ m' : Memory} {H H' : Heap} {p q r ep : Ptr} {d : Compiler.Datum}
  {e : Compiler.Expr} {es : List Compiler.Expr} {ρ ρ' : Compiler.Sym → Compiler.Val}
  {κ : Compiler.Datum → Compiler.Val} {v w : Compiler.Val} {P Q : Prop}

open Compiler (falsep evalExpr evalSeq evalUntil)

/-! ## Values -/

mutual

/-- The value of the expression is not that of an `and` or `or` with another value than a
boolean. -/
def Agrees (ρ : Compiler.Sym → Compiler.Val) : Compiler.Expr → Prop
  | .branch test thenExp elseExp =>
    if falsep (evalExpr .const ρ test).1 then Agrees ρ elseExp else Agrees ρ thenExp
  | .and es => ∃ b, (evalExpr .const ρ (.and es)).1 = .const (.boolean b)
  | .or es => ∃ b, (evalExpr .const ρ (.or es)).1 = .const (.boolean b)
  | .cond clauses => ClausesAgree ρ clauses
  | _ => True

/-- So for the last of the expressions. -/
def LastAgrees (ρ : Compiler.Sym → Compiler.Val) : List Compiler.Expr → Prop
  | [] => True
  | [e] => Agrees ρ e
  | _ :: e :: es => LastAgrees ρ (e :: es)

/-- So for the body of the first clause with a true test. -/
def ClausesAgree (ρ : Compiler.Sym → Compiler.Val) :
    List (Compiler.Expr × List Compiler.Expr) → Prop
  | [] => True
  | (test, seq) :: clauses =>
    if falsep (evalExpr .const ρ test).1 then ClausesAgree ρ clauses else LastAgrees ρ seq

end

/-- The object at `q` is the value. -/
def Denotes (H : Heap) (q : Ptr) (v : Compiler.Val) : Prop := ∃ d, v = .const d ∧ Depicts H q d

/-- The interpreter has `q` where the value is `v`: it is false when `v` is, it is `v` where `P`,
and else it is `#t`, which `v` is not. -/
structure Yields (H : Heap) (q : Ptr) (v : Compiler.Val) (P : Prop) : Prop where
  false_iff : q = schemeFalse ↔ falsep v
  denotes : P → Denotes H q v
  other : ¬P → q = schemeTrue ∧ v ≠ .const (.boolean true)

theorem Yields.congr (h : Yields H q v P) (hv : v = w) (hP : P ↔ Q) : Yields H q w Q := by
  subst hv
  exact ⟨h.false_iff, fun hQ => h.denotes (hP.mpr hQ), fun hQ => h.other fun h => hQ (hP.mp h)⟩

theorem falsep_eq_true (h : falsep v) : v = .const (.boolean false) := by
  unfold falsep at h
  split at h
  · rfl
  · cases h

/-- A boolean for the value. -/
theorem Yields.of_bool (hq : q = schemeTrue ∨ q = schemeFalse)
    (hfalse : q = schemeFalse ↔ falsep v) :
    Yields H q v (∃ b, v = .const (.boolean b)) := by
  refine ⟨hfalse, ?_, fun hne => ⟨?_, fun h => hne ⟨_, h⟩⟩⟩
  · rintro ⟨b, rfl⟩
    refine ⟨_, rfl, ?_⟩
    cases b with
    | false => exact hfalse.mpr rfl
    | true =>
      refine hq.resolve_right fun h => ?_
      exact absurd (hfalse.mp h) (by decide)
  · exact hq.resolve_right fun h => hne ⟨_, falsep_eq_true (hfalse.mp h)⟩

/-! ## Nodes

What a node of the analysis evaluates to, where it stands for an expression and its parts evaluate
to what they denote. -/

theorem Stands.ne_null (h : Stands H p e) (hc : Constants H) : p ≠ schemeNull := by
  cases e <;> rw [Stands] at h
  case selfEval | quote =>
    obtain ⟨-, c, hcar, -⟩ := h
    exact hc.ne_null_of_car? hcar
  case branch =>
    obtain ⟨-, _, _, _, _, hcar, -⟩ := h
    exact hc.ne_null_of_car? hcar
  case and | or | cond => exact h.2.1
  all_goals exact h.elim

theorem Writes.ne_null (h : Writes ext H p e) (hc : Constants H) : p ≠ schemeNull := by
  cases e <;> rw [Writes] at h
  case selfEval =>
    rintro rfl
    obtain ⟨⟨t', ht', hlit⟩, -⟩ := h
    obtain ⟨t, hnull, ht⟩ := hc.null
    rw [Heap.type?_of_obj? hnull, Option.some.injEq] at ht'
    subst ht'
    rcases hlit with rfl | rfl | rfl | rfl <;> rcases ht with h | h <;>
      exact absurd h (by decide)
  case quote =>
    obtain ⟨_, _, _, hpair, -⟩ := h
    exact hpair.ne_null hc
  case branch =>
    obtain ⟨_, _, _, _, hspine, -⟩ := h
    exact hc.ne_null_of_car? hspine.2.1
  case and | or | cond =>
    obtain ⟨_, _, hpair, -⟩ := h
    exact hpair.ne_null hc
  all_goals exact h.elim

/-- An expression is analyzed before it is evaluated. -/
theorem ends_analyze_stands (h : H.Sub m.heap) (hc : Constants H) (hfull : Full e)
    (hp : Writes ext H p e ∨ Stands H p e) :
    p ≠ schemeNull ∧ ∃ q m' H', Ends (fun n => analyze ext n p) m q m' ∧ AddsNodes m H m' H' ∧
      Stands H' q e := by
  rcases hp with hp | hp
  · exact ⟨hp.ne_null hc, settles e hfull h hc hp⟩
  · obtain ⟨t, ht, hexpr⟩ := hp.isExpr
    exact ⟨hp.ne_null hc, p, m, H, Ends.succ (Ends.run_bind (run_schemeType (h.type? ht))
      (Ends.ite_pos hexpr Ends.pure)), AddsNodes.refl h, hp⟩

/-- Evaluation of an expression in any environment. -/
def EvalYields (ext : Externals) (e : Compiler.Expr) (v : Compiler.Val) (P : Prop) : Prop :=
  ∀ (ep : Ptr) {m : Memory} {H : Heap} {p : Ptr}, H.Sub m.heap → Booleans H →
    (Writes ext H p e ∨ Stands H p e) → ∃ q m' H', Ends (fun n => schemeEval ext n p ep) m q m' ∧
      AddsNodes m H m' H' ∧ Yields H' q v P

/-- An expression is evaluated by the function for the type of its node. -/
theorem EvalYields.of_node {t : SchemeType} (hfull : Full e)
    (ht : ∀ {H q}, Stands H q e → H.type? q = some t) (hself : t ≠ .selfEvaluating)
    (hquoted : t ≠ .quotedExpr) (hfun : ∀ (ep : Ptr) {m H q}, H.Sub m.heap → Booleans H →
      Stands H q e → ∃ q' m' H', Ends (fun n => evalFun ext n t q ep) m q' m' ∧
        AddsNodes m H m' H' ∧ Yields H' q' v P) : EvalYields ext e v P := by
  intro ep m H p h hc hp
  obtain ⟨hne, q, m₁, H₁, hends, hadds, hnode⟩ := ends_analyze_stands h hc.toConstants hfull hp
  obtain ⟨q', m', H', hends', hadds', hy⟩ := hfun ep hadds.part (hc.sub hadds.sub) hnode
  refine ⟨q', m', H', ?_, hadds.trans hadds', hy⟩
  exact Ends.succ (Ends.ite_neg hne (hends.bind (Ends.run_bind
    (run_schemeType (hadds.part.type? (ht hnode))) (Ends.ite_neg (by simp [hself, hquoted])
      hends'))))

theorem evalYields_const (he : e = .selfEval d ∨ e = .quote d) (hfull : Full e) :
    EvalYields ext e (.const d) True := by
  intro ep m H p h hc hp
  obtain ⟨hne, q, m₁, H₁, hends, hadds, hnode⟩ := ends_analyze_stands h hc.toConstants hfull hp
  obtain ⟨ht, c, hcar, hd⟩ : (H₁.type? q = some .selfEvaluating ∨ H₁.type? q = some .quotedExpr) ∧
      ∃ c, H₁.car? q = some c ∧ Depicts H₁ c d := by
    rcases he with rfl | rfl <;> rwa [Stands] at hnode
  refine ⟨c, m₁, H₁, Ends.succ (Ends.ite_neg hne (hends.bind ?_)), hadds,
    hd.false_iff (hc.sub hadds.sub), fun _ => ⟨d, rfl, hd⟩, fun h => absurd trivial h⟩
  have hrun := run_schemeCar (hadds.part.car? hcar)
  rcases ht with ht | ht
  · exact Ends.run_bind (run_schemeType (hadds.part.type? ht)) (Ends.ite_pos (.inl rfl)
      (Ends.of_run hrun))
  · exact Ends.run_bind (run_schemeType (hadds.part.type? ht)) (Ends.ite_pos (.inr rfl)
      (Ends.of_run hrun))

theorem evalYields_branch {e₁ e₂ e₃ : Compiler.Expr} (hfull : Full (.branch e₁ e₂ e₃))
    (h₁ : EvalYields ext e₁ (evalExpr .const ρ e₁).1 (Agrees ρ e₁))
    (h₂ : EvalYields ext e₂ (evalExpr .const ρ e₂).1 (Agrees ρ e₂))
    (h₃ : EvalYields ext e₃ (evalExpr .const ρ e₃).1 (Agrees ρ e₃)) :
    EvalYields ext (.branch e₁ e₂ e₃) (evalExpr .const ρ (.branch e₁ e₂ e₃)).1
      (Agrees ρ (.branch e₁ e₂ e₃)) := by
  refine EvalYields.of_node hfull (fun hn => hn.1) (by decide) (by decide)
    fun ep {m H q} h hc hn => ?_
  obtain ⟨-, p₁, arms, p₂, p₃, hcar, hcdr, hcar₂, hcdr₂, hn₁, hn₂, hn₃⟩ := hn
  obtain ⟨q₁, m₁, H₁, hends₁, hadds₁, hy₁⟩ := h₁ ep h hc (.inr hn₁)
  have hbranch : ∀ {q' m'}, Ends (fun n => if q₁ ≠ schemeFalse then schemeEval ext n p₂ ep else
      schemeEval ext n p₃ ep) m₁ q' m' → Ends (fun n => evalFun ext n .ifExpr q ep) m q' m' :=
    fun hb => Ends.succ (Ends.succ (Ends.run_bind (run_schemeCar (h.car? hcar))
      (Ends.run_bind (run_schemeCdr (h.cdr? hcdr)) (Ends.run_bind
        (run_schemeCar (h.car? hcar₂)) (Ends.run_bind (run_schemeCdr (h.cdr? hcdr₂))
          (hends₁.bind hb))))))
  have hc₁ := hc.sub hadds₁.sub
  by_cases hfalse : falsep (evalExpr .const ρ e₁).1
  · obtain ⟨q', m', H', hends, hadds, hy⟩ := h₃ ep hadds₁.part hc₁
      (.inr (hn₃.sub hadds₁.sub))
    refine ⟨q', m', H', hbranch (Ends.ite_neg (not_not.mpr (hy₁.false_iff.mpr hfalse)) hends),
      hadds₁.trans hadds, hy.congr ?_ ?_⟩
    · simp only [evalExpr, hfalse, if_true]
    · simp only [Agrees, hfalse, if_true]
  · obtain ⟨q', m', H', hends, hadds, hy⟩ := h₂ ep hadds₁.part hc₁
      (.inr (hn₂.sub hadds₁.sub))
    refine ⟨q', m', H', hbranch (Ends.ite_pos (fun h => hfalse (hy₁.false_iff.mp h)) hends),
      hadds₁.trans hadds, hy.congr ?_ ?_⟩
    · simp only [evalExpr, if_neg hfalse]
    · simp only [Agrees, if_neg hfalse]

/-! ## Operands -/

/-- The operands are evaluated to what they yield. -/
def AllYield (ext : Externals) (ρ : Compiler.Sym → Compiler.Val) (es : List Compiler.Expr) : Prop :=
  ∀ e ∈ es, EvalYields ext e (evalExpr .const ρ e).1 (Agrees ρ e)

/-- The boolean that `_eval_and` and `_eval_or` return. -/
def IsTruth (q : Ptr) (v : Compiler.Val) : Prop :=
  (q = schemeTrue ∨ q = schemeFalse) ∧ (q = schemeFalse ↔ falsep v)

/-- **The loop of `_eval_and`**, after an operand with the value `v`. -/
theorem evalAnd_ends (ep : Ptr) (hes : AllYield ext ρ es) (h : H.Sub m.heap) (hc : Booleans H)
    (hp : StandsAll H p es) (hv : falsep v = false) :
    ∃ q m' H', Ends (fun n => evalAnd ext n p ep) m q m' ∧ AddsNodes m H m' H' ∧
      IsTruth q (evalUntil .const ρ true v es).1 := by
  induction es generalizing m H p v with
  | nil =>
    obtain rfl : p = schemeNull := by rwa [StandsAll] at hp
    refine ⟨schemeTrue, m, H, .succ (.ite_pos rfl .pure), .refl h, .inl rfl, ?_⟩
    simp only [evalUntil, hv]
    decide
  | cons e es ih =>
    obtain ⟨hne, q, r, hcar, hcdr, hn, hrest⟩ := hp
    obtain ⟨q₁, m₁, H₁, hends, hadds, hy⟩ := hes e List.mem_cons_self ep h hc (.inr hn)
    rw [Compiler.evalUntil_cons (by simp [hv])]
    have hloop : ∀ {q' m'}, Ends (fun n => if q₁ = schemeFalse then pure schemeFalse else do
        evalAnd ext n (← schemeCdr p) ep) m₁ q' m' → Ends (fun n => evalAnd ext n p ep) m q' m' :=
      fun hb => .succ (.ite_neg hne (.run_bind (run_schemeCar (h.car? hcar)) (hends.bind hb)))
    by_cases hfalse : falsep (evalExpr .const ρ e).1
    · refine ⟨schemeFalse, m₁, H₁, hloop (.ite_pos (hy.false_iff.mpr hfalse) .pure), hadds,
        .inr rfl, ?_⟩
      rw [Compiler.evalUntil_of_eq hfalse]
      exact iff_of_true rfl hfalse
    · obtain ⟨q', m', H', hends', hadds', hq'⟩ := ih
        (fun e he => hes e (List.mem_cons_of_mem _ he)) hadds.part (hc.sub hadds.sub)
        (hrest.sub hadds.sub) (Bool.not_eq_true _ ▸ hfalse)
      refine ⟨q', m', H', hloop (.ite_neg (fun hq => hfalse (hy.false_iff.mp hq)) ?_),
        hadds.trans hadds', hq'⟩
      exact .run_bind (run_schemeCdr (hadds.part.cdr? (hadds.sub.cdr? hcdr))) hends'

/-- **The loop of `_eval_or`**, after an operand with the value `v`. -/
theorem evalOr_ends (ep : Ptr) (hes : AllYield ext ρ es) (h : H.Sub m.heap) (hc : Booleans H)
    (hp : StandsAll H p es) (hv : falsep v = true) :
    ∃ q m' H', Ends (fun n => evalOr ext n p ep) m q m' ∧ AddsNodes m H m' H' ∧
      IsTruth q (evalUntil .const ρ false v es).1 := by
  induction es generalizing m H p v with
  | nil =>
    obtain rfl : p = schemeNull := by rwa [StandsAll] at hp
    refine ⟨schemeFalse, m, H, .succ (.ite_pos rfl .pure), .refl h, .inr rfl, ?_⟩
    simp only [evalUntil, hv]
  | cons e es ih =>
    obtain ⟨hne, q, r, hcar, hcdr, hn, hrest⟩ := hp
    obtain ⟨q₁, m₁, H₁, hends, hadds, hy⟩ := hes e List.mem_cons_self ep h hc (.inr hn)
    rw [Compiler.evalUntil_cons (by simp [hv])]
    have hloop : ∀ {q' m'}, Ends (fun n => if q₁ ≠ schemeFalse then pure schemeTrue else do
        evalOr ext n (← schemeCdr p) ep) m₁ q' m' → Ends (fun n => evalOr ext n p ep) m q' m' :=
      fun hb => .succ (.ite_neg hne (.run_bind (run_schemeCar (h.car? hcar)) (hends.bind hb)))
    by_cases hfalse : falsep (evalExpr .const ρ e).1
    · obtain ⟨q', m', H', hends', hadds', hq'⟩ := ih
        (fun e he => hes e (List.mem_cons_of_mem _ he)) hadds.part (hc.sub hadds.sub)
        (hrest.sub hadds.sub) hfalse
      refine ⟨q', m', H', hloop (.ite_neg (not_not.mpr (hy.false_iff.mpr hfalse)) ?_),
        hadds.trans hadds', hq'⟩
      exact .run_bind (run_schemeCdr (hadds.part.cdr? (hadds.sub.cdr? hcdr))) hends'
    · refine ⟨schemeTrue, m₁, H₁, hloop (.ite_pos (fun hq => hfalse (hy.false_iff.mp hq)) .pure),
        hadds, .inl rfl, ?_⟩
      rw [Compiler.evalUntil_of_eq (Bool.not_eq_true _ ▸ hfalse)]
      exact iff_of_false (by decide) hfalse

theorem evalYields_and (hfull : Full (.and es)) (hes : AllYield ext ρ es) :
    EvalYields ext (.and es) (evalExpr .const ρ (.and es)).1 (Agrees ρ (.and es)) := by
  refine EvalYields.of_node hfull (fun hn => hn.1) (by decide) (by decide)
    fun ep {m H q} h hc hn => ?_
  cases es with
  | nil => exact absurd rfl hfull.1
  | cons e es =>
    obtain ⟨q', m', H', hends, hadds, hq, hfalse⟩ := evalAnd_ends (v := .const (.boolean true))
      ep hes h hc hn.2.2 rfl
    exact ⟨q', m', H', .succ hends, hadds, (Yields.of_bool hq hfalse).congr
      (by simp only [evalExpr]) (by simp only [Agrees, evalExpr])⟩

theorem evalYields_or (hfull : Full (.or es)) (hes : AllYield ext ρ es) :
    EvalYields ext (.or es) (evalExpr .const ρ (.or es)).1 (Agrees ρ (.or es)) := by
  refine EvalYields.of_node hfull (fun hn => hn.1) (by decide) (by decide)
    fun ep {m H q} h hc hn => ?_
  cases es with
  | nil => exact absurd rfl hfull.1
  | cons e es =>
    obtain ⟨q', m', H', hends, hadds, hq, hfalse⟩ := evalOr_ends (v := .const (.boolean false))
      ep hes h hc hn.2.2 rfl
    exact ⟨q', m', H', .succ hends, hadds, (Yields.of_bool hq hfalse).congr
      (by simp only [evalExpr]) (by simp only [Agrees, evalExpr])⟩

/-! ## Clauses -/

/-- The body of a clause. -/
theorem evalElements_ends (ep : Ptr) (hes : AllYield ext ρ es) (hne : es ≠ []) (h : H.Sub m.heap)
    (hc : Booleans H) (hp : StandsAll H p es) :
    ∃ q m' H', Ends (fun n => evalElements ext n p ep) m q m' ∧ AddsNodes m H m' H' ∧
      Yields H' q (evalSeq .const ρ v es).1 (LastAgrees ρ es) := by
  induction es generalizing m H p v with
  | nil => exact absurd rfl hne
  | cons e es ih =>
    obtain ⟨-, q, r, hcar, hcdr, hn, hrest⟩ := hp
    obtain ⟨q₁, m₁, H₁, hends, hadds, hy⟩ := hes e List.mem_cons_self ep h hc (.inr hn)
    cases es with
    | nil =>
      obtain rfl : r = schemeNull := by rwa [StandsAll] at hrest
      refine ⟨q₁, m₁, H₁, .succ (.run_bind (run_schemeCdr (h.cdr? hcdr)) (.ite_pos rfl
        (.run_bind (run_schemeCar (h.car? hcar)) hends))), hadds, hy.congr ?_ ?_⟩
      · simp only [evalSeq]
      · simp only [LastAgrees]
    | cons e' es =>
      obtain ⟨q', m', H', hends', hadds', hy'⟩ := ih (v := (evalExpr .const ρ e).1)
        (fun e he => hes e (List.mem_cons_of_mem _ he)) (List.cons_ne_nil e' es) hadds.part
        (hc.sub hadds.sub) (hrest.sub hadds.sub)
      refine ⟨q', m', H', .succ (.run_bind (run_schemeCdr (h.cdr? hcdr)) (.ite_neg hrest.1
        (.run_bind (run_schemeCar (h.car? hcar)) (hends.bind ?_)))), hadds.trans hadds',
        hy'.congr ?_ ?_⟩
      · exact .run_bind (run_schemeCdr (hadds.part.cdr? (hadds.sub.cdr? hcdr))) hends'
      · simp only [evalSeq]
      · simp only [LastAgrees]

/-- **The loop of `_eval_cond`**. -/
theorem evalCond_ends (ep : Ptr) {clauses : List (Compiler.Expr × List Compiler.Expr)}
    (hcs : ∀ x ∈ clauses, EvalYields ext x.1 (evalExpr .const ρ x.1).1 (Agrees ρ x.1) ∧ x.2 ≠ [] ∧
      AllYield ext ρ x.2) (h : H.Sub m.heap) (hc : Booleans H) (hp : StandsClauses H p clauses) :
    ∃ q m' H', Ends (fun n => evalCond ext n p ep) m q m' ∧ AddsNodes m H m' H' ∧
      Yields H' q (Compiler.evalCond .const ρ clauses).1 (ClausesAgree ρ clauses) := by
  induction clauses generalizing m H p with
  | nil =>
    obtain rfl : p = schemeNull := by rwa [StandsClauses] at hp
    refine ⟨schemeVoid, m, H, .succ (.ite_pos rfl .pure), .refl h, ?_⟩
    simp only [Compiler.evalCond, ClausesAgree]
    exact ⟨by decide, fun _ => ⟨_, rfl, rfl⟩, fun h => absurd trivial h⟩
  | cons clause clauses ih =>
    obtain ⟨test, seq⟩ := clause
    obtain ⟨hne, q, r, x, y, hcar, hcdr, hx, hy, hn, hseq, hny, hrest⟩ := hp
    obtain ⟨htest, hseqne, hbody⟩ := hcs _ List.mem_cons_self
    obtain ⟨q₁, m₁, H₁, hends, hadds, hy₁⟩ := htest ep h hc (.inr hn)
    have hc₁ := hc.sub hadds.sub
    have htrue : x ≠ schemeTrue := hn.ne_of_type hc.true (by decide)
    have hloop : ∀ {q' m'}, Ends (fun n => if q₁ ≠ schemeFalse then do
        schemeEvalSequence ext n (← schemeCdr q) ep
        else do evalCond ext n (← schemeCdr p) ep) m₁ q' m' →
          Ends (fun n => evalCond ext n p ep) m q' m' :=
      fun hb => .succ (.ite_neg hne (.run_bind (run_schemeCar (h.car? hcar)) (.run_bind
        (run_schemeCar (h.car? hx)) (.ite_neg htrue (hends.bind hb)))))
    by_cases hfalse : falsep (evalExpr .const ρ test).1
    · obtain ⟨q', m', H', hends', hadds', hy'⟩ := ih
        (fun z hz => hcs z (List.mem_cons_of_mem _ hz)) hadds.part hc₁ (hrest.sub hadds.sub)
      refine ⟨q', m', H', hloop (.ite_neg (not_not.mpr (hy₁.false_iff.mpr hfalse)) ?_),
        hadds.trans hadds', hy'.congr ?_ ?_⟩
      · exact .run_bind (run_schemeCdr (hadds.part.cdr? (hadds.sub.cdr? hcdr))) hends'
      · simp only [Compiler.evalCond, hfalse, if_true]
      · simp only [ClausesAgree, hfalse, if_true]
    · obtain ⟨q', m', H', hends', hadds', hy'⟩ :=
        evalElements_ends (v := (evalExpr .const ρ test).1)
        ep hbody hseqne hadds.part hc₁ (hseq.sub hadds.sub)
      refine ⟨q', m', H', hloop (.ite_pos (fun hq => hfalse (hy₁.false_iff.mp hq)) ?_),
        hadds.trans hadds', hy'.congr ?_ ?_⟩
      · exact .run_bind (run_schemeCdr (hadds.part.cdr? (hadds.sub.cdr? hy)))
          (.succ (.ite_neg hny hends'))
      · simp only [Compiler.evalCond, if_neg hfalse]
      · simp only [ClausesAgree, if_neg hfalse]

theorem evalYields_cond {clauses : List (Compiler.Expr × List Compiler.Expr)}
    (hfull : Full (.cond clauses))
    (hcs : ∀ x ∈ clauses, EvalYields ext x.1 (evalExpr .const ρ x.1).1
      (Agrees ρ x.1) ∧ x.2 ≠ [] ∧ AllYield ext ρ x.2) :
    EvalYields ext (.cond clauses) (evalExpr .const ρ (.cond clauses)).1
      (Agrees ρ (.cond clauses)) := by
  refine EvalYields.of_node hfull (fun hn => hn.1) (by decide) (by decide)
    fun ep {m H q} h hc hn => ?_
  obtain ⟨q', m', H', hends, hadds, hy⟩ := evalCond_ends ep hcs h hc hn.2.2
  exact ⟨q', m', H', .succ hends, hadds, hy.congr (by simp only [evalExpr])
    (by simp only [Agrees])⟩

variable (ρ)

mutual

/-- **What the interpreter makes of a full expression**. -/
theorem evalYields : (e : Compiler.Expr) → Full e →
    EvalYields ext e (evalExpr .const ρ e).1 (Agrees ρ e)
  | .selfEval d, h => by
    rw [evalExpr, Agrees]
    · exact evalYields_const (.inl rfl) h
    all_goals nofun
  | .quote d, h => by
    rw [evalExpr, Agrees]
    · exact evalYields_const (.inr rfl) h
    all_goals nofun
  | .branch test thenExp elseExp, h => evalYields_branch h (evalYields test h.1)
    (evalYields thenExp h.2.1) (evalYields elseExp h.2.2)
  | .and es, h => evalYields_and h (evalYields_all es h.2)
  | .or es, h => evalYields_or h (evalYields_all es h.2)
  | .cond clauses, h => evalYields_cond h (evalYields_clauses clauses h.2)
  | .variable _, h | .procCall _ _, h | .sequence _, h | .lambda _ _, h | .defvar _ _, h
  | .defun _ _ _, h | .defun2 _ _ _ _, h | .assign _ _, h | .case _ _ _, h | .let _ _, h => h.elim

theorem evalYields_all : (es : List Compiler.Expr) → FullAll es → AllYield ext ρ es
  | [], _ => nofun
  | e :: es, h => List.forall_mem_cons.mpr ⟨evalYields e h.1, evalYields_all es h.2⟩

theorem evalYields_clauses : (clauses : List (Compiler.Expr × List Compiler.Expr)) →
    FullClauses clauses → ∀ x ∈ clauses,
      EvalYields ext x.1 (evalExpr .const ρ x.1).1 (Agrees ρ x.1) ∧
      x.2 ≠ [] ∧ AllYield ext ρ x.2
  | [], _ => nofun
  | (test, seq) :: clauses, h => List.forall_mem_cons.mpr
    ⟨⟨evalYields test h.1, h.2.1, evalYields_all seq h.2.2.1⟩, evalYields_clauses clauses h.2.2.2⟩

end

variable {ρ}

/-! ## Compiled code

The same expressions, as the compiled code leaves their values.  A variable without a value and a
test that comes to no value stop both. -/

mutual

/-- Full expressions have no variables. -/
theorem evalExpr_eq : (e : Compiler.Expr) → Full e → evalExpr κ ρ e = evalExpr κ ρ' e
  | .selfEval _, _ => by simp only [evalExpr]
  | .quote _, _ => by simp only [evalExpr]
  | .branch test thenExp elseExp, h => by
    simp only [evalExpr, evalExpr_eq test h.1,
      evalExpr_eq thenExp h.2.1, evalExpr_eq elseExp h.2.2]
  | .and [], _ => by simp only [evalExpr]
  | .and (e :: es), h => by simp only [evalExpr, evalUntil_eq (e :: es) h.2]
  | .or [], _ => by simp only [evalExpr]
  | .or (e :: es), h => by simp only [evalExpr, evalUntil_eq (e :: es) h.2]
  | .cond clauses, h => by simp only [evalExpr, evalCond_eq clauses h.2]

theorem evalUntil_eq {b : Bool} {v : Compiler.Val} : (es : List Compiler.Expr) → FullAll es →
    evalUntil κ ρ b v es = evalUntil κ ρ' b v es
  | [], _ => by simp only [evalUntil]
  | e :: es, h => by
    simp only [evalUntil, evalExpr_eq e h.1,
      evalUntil_eq es h.2]

theorem evalSeq_eq {v : Compiler.Val} : (es : List Compiler.Expr) → FullAll es →
    evalSeq κ ρ v es = evalSeq κ ρ' v es
  | [], _ => by simp only [evalSeq]
  | e :: es, h => by
    simp only [evalSeq, evalExpr_eq e h.1,
      evalSeq_eq es h.2]

theorem evalCond_eq : (clauses : List (Compiler.Expr × List Compiler.Expr)) →
    FullClauses clauses → Compiler.evalCond κ ρ clauses = Compiler.evalCond κ ρ' clauses
  | [], _ => by simp only [Compiler.evalCond]
  | (test, seq) :: clauses, h => by
    simp only [Compiler.evalCond, evalExpr_eq test h.1,
      evalSeq_eq seq h.2.2.1, evalCond_eq clauses h.2.2.2]

end

section Pure

variable {env : Compiler.CompileTimeEnvt}

mutual

theorem Full.pure : (e : Compiler.Expr) → Full e → Compiler.Pure env e
  | .selfEval _, h => by rw [Compiler.Pure]; exact h
  | .quote _, h => by rw [Compiler.Pure]; exact h
  | .branch test thenExp elseExp, h => by
    rw [Compiler.Pure]
    exact ⟨Full.pure test h.1, Full.pure thenExp h.2.1, Full.pure elseExp h.2.2⟩
  | .and es, h => by rw [Compiler.Pure]; exact FullAll.pure es h.2
  | .or es, h => by rw [Compiler.Pure]; exact FullAll.pure es h.2
  | .cond clauses, h => by rw [Compiler.Pure]; exact FullClauses.pure clauses h.2

theorem FullAll.pure : (es : List Compiler.Expr) → FullAll es → Compiler.AllPure env es
  | [], _ => by rw [Compiler.AllPure]; trivial
  | e :: es, h => by rw [Compiler.AllPure]; exact ⟨Full.pure e h.1, FullAll.pure es h.2⟩

theorem FullClauses.pure : (clauses : List (Compiler.Expr × List Compiler.Expr)) →
    FullClauses clauses → Compiler.ClausesPure env clauses
  | [], _ => by rw [Compiler.ClausesPure]; trivial
  | (test, seq) :: clauses, h => by
    rw [Compiler.ClausesPure]
    exact ⟨Full.pure test h.1, FullAll.pure seq h.2.2.1, FullClauses.pure clauses h.2.2.2⟩

end

end Pure

/-- No variable has a value. -/
def unbound : Compiler.Sym → Compiler.Val := fun _ => .junk

/-- The code of the expression, from its start and whatever the registers hold, comes to its end
with the value in `reg_value`, and nothing else has changed. -/
def Leaves (e : Compiler.Expr) (v : Compiler.Val) : Prop :=
  ∃ prog, Compiler.compile [e] = some prog ∧ ∀ M : Compiler.Svm, ∃ loads,
    Compiler.Executes prog ⟨Compiler.topEnvt prog, prog, M⟩ loads
      ⟨Compiler.topEnvt prog, [], M.setValue v⟩

theorem leaves_evalExpr (h : Full e) : Leaves e (evalExpr .ofConst unbound e).1 := by
  have hseq : ∀ env, Compiler.Pure env (.sequence [e]) := fun env => by
    rw [Compiler.Pure]
    exact ⟨List.cons_ne_nil e [], FullAll.pure [e] ⟨h, trivial⟩⟩
  obtain ⟨c, m, hcode⟩ := Compiler.exists_code (.sequence [e]) true 0 (hseq .nullEnvt)
  have hprog : Compiler.compile [e] = some c := by
    change ((Compiler.compileExprM true (.sequence [e])) 0).map Prod.fst = some c
    rw [hcode]
    rfl
  refine ⟨c, hprog, fun M => ?_⟩
  have hrun := Compiler.executes_expr (.sequence [e]) hcode (Compiler.linked_compile hprog)
    (hseq _) M
  rw [List.append_nil] at hrun
  have hval : (evalExpr .ofConst (M.valueOf (Compiler.topEnvt c)) (.sequence [e])).1 =
      (evalExpr .ofConst unbound e).1 := by
    simp only [evalExpr, evalSeq]
    rw [evalExpr_eq e h]
  rw [hval] at hrun
  exact ⟨_, hrun⟩

theorem Leaves.unique (h : Leaves e v) (h' : Leaves e w) : v = w := by
  obtain ⟨prog, hprog, hrun⟩ := h
  obtain ⟨prog', hprog', hrun'⟩ := h'
  obtain rfl := Option.some.inj (hprog.symm.trans hprog')
  obtain ⟨ls, as, has, -⟩ := hrun .init
  obtain ⟨ls', bs, hbs, -⟩ := hrun' .init
  have hstuck : ∀ M a u, ¬Compiler.Steps prog ⟨Compiler.topEnvt prog, [], M⟩ a u := by
    rintro M a u ⟨-, hu⟩
    cases hu
  have heq := has.unique_of_stuck (fun s a b t u ht hu => Option.some.inj (ht.2.symm.trans hu.2))
    (hstuck _) (hstuck _) hbs
  exact congrArg (fun s : Compiler.State => s.svm.value) heq

/-! ## Constants that come back as others -/

/-- Only a boolean comes back as one. -/
theorem eq_boolean_of_emitted {b : Bool} (h : Compiler.emitted d = some (.boolean b)) :
    d = .boolean b := by
  cases d with
  | boolean b' => simpa [Compiler.emitted] using h
  | symbol s => cases s <;> simp [Compiler.emitted] at h
  | sExp ds last =>
    cases ds with
    | nil => simp [Compiler.emitted] at h
    | cons d ds =>
      rw [Compiler.emitted, Option.bind_eq_some_iff] at h
      obtain ⟨ds', -, h⟩ := h
      simp at h
  | _ => simp [Compiler.emitted] at h

mutual

/-- An object is at most one of a constant and what comes back for it, if these differ. -/
theorem Depicts.emitted : ∀ {d d' : Compiler.Datum} {p : Ptr}, Depicts H p d →
    Compiler.emitted d = some d' → Depicts H p d' → d' = d
  | .void, _, _, _, he, _ => by
    rw [Compiler.emitted] at he
    exact (Option.some.inj he).symm
  | .boolean b, _, _, _, he, _ => by
    rw [Compiler.emitted] at he
    exact (Option.some.inj he).symm
  | .number n, _, _, h, he, h' => by
    rw [Compiler.emitted] at he
    obtain rfl := Option.some.inj he
    have hint := Payload.int.inj (congrArg Obj.u (Option.some.inj (h.symm.trans h')))
    rw [← hint]
  | .character c, _, _, h, he, h' => by
    rw [Compiler.emitted, Option.map_eq_some_iff] at he
    obtain ⟨c', -, rfl⟩ := he
    cases h.symm.trans h'
    rfl
  | .string s, _, _, h, he, h' => by
    rw [Compiler.emitted, Option.map_eq_some_iff] at he
    obtain ⟨s', -, rfl⟩ := he
    cases h.symm.trans h'
    rfl
  | .symbol (.sym s), _, _, h, he, h' => by
    rw [Compiler.emitted, Option.map_eq_some_iff] at he
    obtain ⟨s', -, rfl⟩ := he
    cases h.symm.trans h'
    rfl
  | .symbol .nil, _, _, h, _, _ => h.elim
  | .list ds, _, _, ⟨_, h, _⟩, he, h' => by
    rw [Compiler.emitted, Option.map_eq_some_iff] at he
    obtain ⟨ds', hds', rfl⟩ := he
    obtain ⟨_, h', -⟩ := h'
    rw [(DepictsAll.emitted h hds' h').1]
  | .sExp [] _, _, _, h, _, _ => absurd rfl h.1
  | .sExp (d :: ds) last, _, _, ⟨_, q, h, hq⟩, he, h' => by
    rw [Compiler.emitted, Option.bind_eq_some_iff] at he
    obtain ⟨ds', hds', he⟩ := he
    rw [Option.map_eq_some_iff] at he
    obtain ⟨last', hlast, rfl⟩ := he
    obtain ⟨-, q', h', hq'⟩ := h'
    obtain ⟨rfl, rfl⟩ := DepictsAll.emitted h hds' h'
    rw [hq.emitted hlast hq']
  | .abbrev _ _, _, _, _, he, _ => by
    rw [Compiler.emitted] at he
    cases he
  | .vector _, _, _, _, he, _ => by
    rw [Compiler.emitted] at he
    cases he

theorem DepictsAll.emitted : ∀ {ds ds' : List Compiler.Datum} {p q q' : Ptr}, DepictsAll H p ds q →
    Compiler.emittedAll ds = some ds' → DepictsAll H p ds' q' → ds' = ds ∧ q' = q
  | [], _, _, _, _, h, he, h' => by
    rw [Compiler.emittedAll] at he
    obtain rfl := Option.some.inj he
    exact ⟨rfl, h'.symm.trans h⟩
  | d :: ds, _, _, _, _, ⟨x, r, hpair, hd, hds⟩, he, h' => by
    rw [Compiler.emittedAll, Option.bind_eq_some_iff] at he
    obtain ⟨d', hd', he⟩ := he
    rw [Option.map_eq_some_iff] at he
    obtain ⟨ds', hds', rfl⟩ := he
    obtain ⟨x', r', hpair', hx', hr'⟩ := h'
    cases hpair.2.1.symm.trans hpair'.2.1
    cases hpair.2.2.symm.trans hpair'.2.2
    obtain ⟨rfl, rfl⟩ := DepictsAll.emitted hds hds' hr'
    exact ⟨by rw [hd.emitted hd' hx'], rfl⟩

end

/-! ## Agreement -/

/-- **The same value**: the interpreter evaluates the datum at `p` to the value that the code of the
expression leaves in `reg_value`. -/
def SameValue (ext : Externals) (m : Memory) (p ep : Ptr) (e : Compiler.Expr) : Prop :=
  ∃ q m' v, Ends (fun n => schemeEval ext n p ep) m q m' ∧ Leaves e v ∧ Denotes m'.heap q v

/-- The value left is that of the last constant, as it comes back. -/
theorem exists_last (hfull : Full e) : ∃ l : Compiler.Load,
    (evalExpr .const unbound e).1 = l.val .const unbound ∧
      (evalExpr .const unbound e).2.getLast? = some l ∧ Leaves e (l.val .ofConst unbound) := by
  have hleaves := leaves_evalExpr hfull
  have hpure : Compiler.Pure .nullEnvt e := Full.pure e hfull
  obtain ⟨ls, l, hconst, hofConst⟩ :
      Compiler.SameLoads .ofConst unbound (evalExpr .const unbound e)
        (evalExpr .ofConst unbound e) :=
    Compiler.sameLoads_expr Compiler.falsep_ofConst e hpure
  rw [hofConst] at hleaves
  rw [hconst]
  exact ⟨l, rfl, by simp, hleaves⟩

theorem SameValue.agrees (h : SameValue ext m p ep e) (hc : Booleans m.heap) (hfull : Full e)
    (hp : Writes ext m.heap p e) : Agrees unbound e ∧ Compiler.ValueKept unbound e := by
  obtain ⟨q', m₁, v, hends', hleaves, d', rfl, hd'⟩ := h
  obtain ⟨q, m', H', hends, hadds, hy⟩ :=
    evalYields unbound e hfull ep Heap.Sub.refl hc (.inl hp)
  obtain ⟨rfl, rfl⟩ := hends.unique hends'
  obtain ⟨l, hval, hlast, hleft⟩ := exists_last hfull
  have hl := hleft.unique hleaves
  cases l with
  | var x => cases hl
  | const d =>
    have hemitted : Compiler.emitted d = some d' := Compiler.Val.emitted_of_ofConst hl
    have hagrees : Agrees unbound e := by
      by_contra hne
      obtain ⟨rfl, hother⟩ := hy.other hne
      have hc' := hc.sub hadds.heap
      obtain ⟨b, rfl⟩ := hd'.exists_boolean hc' hc'.true
      obtain rfl := eq_boolean_of_emitted hemitted
      cases b with
      | false => exact absurd hd' (by decide : schemeTrue ≠ schemeFalse)
      | true => exact hother hval
    refine ⟨hagrees, fun d₀ hd₀ => ?_⟩
    cases hlast.symm.trans hd₀
    obtain ⟨d₁, hd₁, hdepicts⟩ := hy.denotes hagrees
    cases hval.symm.trans hd₁
    rw [(hdepicts.sub hadds.part).emitted hemitted hd'] at hemitted
    exact (Compiler.emitted_eq_iff _).mp hemitted

theorem SameValue.of_agrees (h : Agrees unbound e) (hkept : Compiler.ValueKept unbound e)
    (hc : Booleans m.heap) (hfull : Full e) (hp : Writes ext m.heap p e) :
    SameValue ext m p ep e := by
  obtain ⟨q, m', H', hends, hadds, hy⟩ :=
    evalYields unbound e hfull ep Heap.Sub.refl hc (.inl hp)
  obtain ⟨d, hv, hd⟩ := hy.denotes h
  have hpure : Compiler.Pure .nullEnvt e := Full.pure e hfull
  have hsame := (Compiler.evalExpr_ofConst hpure).2.mpr hkept
  exact ⟨q, m', _, hends, leaves_evalExpr hfull, d, hsame.trans hv, hd.sub hadds.part⟩

/-- **The interpreter and the compiled code agree** on a full expression exactly when its value is
not that of an `and` or an `or` that has another value than a boolean, and is no constant that comes
back from the C file as another. -/
theorem sameValue_iff (hc : Booleans m.heap) (hfull : Full e) (hp : Writes ext m.heap p e) :
    SameValue ext m p ep e ↔ Agrees unbound e ∧ Compiler.ValueKept unbound e :=
  ⟨fun h => h.agrees hc hfull hp, fun h => .of_agrees h.1 h.2 hc hfull hp⟩

/-- Nothing but NULs after the names of the keywords, and no builtin procedures. -/
def bareExternals : Externals :=
  ⟨fun _ _ => '\x00', fun _ _ _ => failure⟩

/-- The objects of `(and #t #f)` and of `(and 1)`, with their first pairs last. -/
def booleanMemory : Memory :=
  { Memory.init with objs := Memory.init.objs ++
    [⟨.symbol, .symbol ['a', 'n', 'd']⟩, ⟨.pair, .pair schemeFalse (some schemeNull)⟩,
     ⟨.pair, .pair schemeTrue (some (.obj 7))⟩, ⟨.integer, .int 1⟩,
     ⟨.pair, .pair (.obj 9) (some schemeNull)⟩, ⟨.pair, .pair (.obj 6) (some (.obj 8))⟩,
     ⟨.pair, .pair (.obj 6) (some (.obj 10))⟩] }

theorem booleans_booleanMemory : Booleans booleanMemory.heap where
  null := ⟨.null, rfl, .inl rfl⟩
  void := rfl
  false := rfl
  true := rfl

theorem isKeyword_and : IsKeyword bareExternals booleanMemory.heap (.obj 6) .and :=
  ⟨rfl, _, rfl, by decide +kernel⟩

theorem sameValue_iff_and : SameValue bareExternals booleanMemory (.obj 11) schemeNull
    (.and [.selfEval (.boolean true), .selfEval (.boolean false)]) := by
  refine (sameValue_iff booleans_booleanMemory ?_ ?_).mpr ⟨⟨false, rfl⟩, fun d hd => ?_⟩
  · exact ⟨List.cons_ne_nil _ _, trivial, trivial, trivial⟩
  · exact ⟨.obj 6, .obj 8, ⟨rfl, rfl, rfl⟩, isKeyword_and, schemeTrue, .obj 7, ⟨rfl, rfl, rfl⟩,
      ⟨⟨.bool, rfl, .inr (.inr (.inr rfl))⟩, rfl⟩, schemeFalse, schemeNull, ⟨rfl, rfl, rfl⟩,
      ⟨⟨.bool, rfl, .inr (.inr (.inr rfl))⟩, rfl⟩, rfl⟩
  · cases hd
    trivial

/-- The interpreter makes `#t` of `(and 1)`. -/
theorem not_sameValue : ¬∀ (ext : Externals) (m : Memory) (p ep : Ptr) (e : Compiler.Expr),
    Booleans m.heap → Writes ext m.heap p e → SameValue ext m p ep e := by
  intro h
  have hwrites : Writes bareExternals booleanMemory.heap (.obj 12) (.and [.selfEval (.number 1)]) :=
    ⟨.obj 6, .obj 10, ⟨rfl, rfl, rfl⟩, isKeyword_and, .obj 9, schemeNull, ⟨rfl, rfl, rfl⟩,
      ⟨⟨.integer, rfl, .inl rfl⟩, rfl⟩, rfl⟩
  have hfull : Full (.and [.selfEval (.number 1)]) := ⟨List.cons_ne_nil _ _, trivial, trivial⟩
  obtain ⟨⟨b, hb⟩, -⟩ := (h _ _ (.obj 12) schemeNull _ booleans_booleanMemory hwrites).agrees
    booleans_booleanMemory hfull hwrites
  simp [evalExpr, evalUntil, falsep] at hb

end SchemeOs
