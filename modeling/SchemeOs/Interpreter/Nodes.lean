import SchemeOs.Interpreter.Eval
import SchemeOs.Machinery.Language

/-!
# Interpreter/Nodes — data and analyzed nodes as expressions

`Reads H p e` says that the datum at `p` reads as the expression `e`, and `Node H p e` that the
analyzed node at `p` stands for it.  Both look only at the objects of `H`, a part of the memory.  A
form is special when `findKeyword` has a handler for its head, and nothing is asked of other names.
-/

namespace SchemeOs

/-- Names and constants of the interpreter are pointers: a symbol is its address. -/
abbrev SExpr := Expr Ptr Ptr

abbrev SValue := Value Ptr Ptr

section Reads

variable (ext : Externals)

/-- `p` is a symbol for which `findKeyword` returns the handler `keyword`. -/
def IsKeyword (H : Heap) (p : Ptr) (keyword : Keyword) : Prop :=
  H.type? p = some .symbol ∧ ∃ name, H.symbolVal? p = some name ∧
    findKeyword ext name = some keyword

/-- `p` can head an application: it is a form, or a symbol for which there is no handler. -/
def IsOperator (H : Heap) (p : Ptr) : Prop :=
  H.type? p = some .pair ∨ H.type? p = some .symbol ∧ ∃ name, H.symbolVal? p = some name ∧
    findKeyword ext name = none

/-- `p` is an integer, a string, a character or a boolean. -/
def IsLiteral (H : Heap) (p : Ptr) : Prop :=
  ∃ t, H.type? p = some t ∧ (t = .integer ∨ t = .string ∨ t = .char ∨ t = .bool)

/-- `p` is a pair of `x` and `q`. -/
def IsPair (H : Heap) (p x q : Ptr) : Prop :=
  H.type? p = some .pair ∧ H.car? p = some x ∧ H.cdr? p = some q

mutual

/-- The datum at `p` reads as an expression. -/
def Reads (H : Heap) : Ptr → SExpr → Prop
  | p, .const c =>
    IsLiteral H p ∧ c = p ∨
      ∃ k r, IsPair H p k r ∧ IsKeyword ext H k .quote ∧ IsPair H r c schemeNull
  | p, .var x => x = p ∧ H.type? p = some .symbol
  | p, .ite e₁ e₂ e₃ => ∃ k p₁ p₂ p₃, H.Spine p [k, p₁, p₂, p₃] schemeNull ∧
      IsKeyword ext H k .if ∧ Reads H p₁ e₁ ∧ Reads H p₂ e₂ ∧ Reads H p₃ e₃
  | p, .lambda xs body => ∃ k r vars b, IsPair H p k r ∧ IsKeyword ext H k .lambda ∧
      IsPair H r vars b ∧ H.Spine vars xs schemeNull ∧ body ≠ [] ∧ ReadsAll H b body
  | p, .define x e => ∃ k p₁, H.Spine p [k, x, p₁] schemeNull ∧ IsKeyword ext H k .define ∧
      H.type? x = some .symbol ∧ Reads H p₁ e
  | p, .defun f xs body => ∃ k r h vars b, IsPair H p k r ∧ IsKeyword ext H k .define ∧
      IsPair H r h b ∧ IsPair H h f vars ∧ H.Spine vars xs schemeNull ∧ body ≠ [] ∧
      ReadsAll H b body
  | p, .begin es => ∃ k r, IsPair H p k r ∧ IsKeyword ext H k .begin ∧ es ≠ [] ∧ ReadsAll H r es
  | p, .app f es => ∃ k r, IsPair H p k r ∧ IsOperator ext H k ∧ Reads H k f ∧ ReadsAll H r es

/-- The elements of the list at `p` read as expressions. -/
def ReadsAll (H : Heap) : Ptr → List SExpr → Prop
  | p, [] => p = schemeNull
  | p, e :: es => ∃ q r, IsPair H p q r ∧ Reads H q e ∧ ReadsAll H r es

end

end Reads

mutual

/-- The analyzed node at `p` stands for an expression. -/
def Node (H : Heap) : Ptr → SExpr → Prop
  | p, .const c =>
    (H.type? p = some .selfEvaluating ∨ H.type? p = some .quotedExpr) ∧ H.car? p = some c
  | p, .var x => H.type? p = some .variableExpr ∧ H.car? p = some x
  | p, .ite e₁ e₂ e₃ => H.type? p = some .ifExpr ∧ ∃ p₁ arms p₂ p₃, H.car? p = some p₁ ∧
      H.cdr? p = some arms ∧ H.car? arms = some p₂ ∧ H.cdr? arms = some p₃ ∧
      Node H p₁ e₁ ∧ Node H p₂ e₂ ∧ Node H p₃ e₃
  | p, .lambda xs body => H.type? p = some .lambdaExpr ∧ ∃ vars b, H.car? p = some vars ∧
      H.cdr? p = some b ∧ H.Spine vars xs schemeNull ∧ body ≠ [] ∧ Nodes H b body
  | p, .define x e => H.type? p = some .defvarExpr ∧ ∃ p₁, H.car? p = some x ∧
      H.cdr? p = some p₁ ∧ Node H p₁ e
  | p, .defun f xs body => H.type? p = some .defunExpr ∧ ∃ r vars b, H.car? p = some f ∧
      H.cdr? p = some r ∧ H.car? r = some vars ∧ H.cdr? r = some b ∧
      H.Spine vars xs schemeNull ∧ body ≠ [] ∧ Nodes H b body
  | p, .begin es => H.type? p = some .beginExpr ∧ es ≠ [] ∧ Nodes H p es
  | p, .app f es => H.type? p = some .applicationExpr ∧ ∃ q r, H.car? p = some q ∧
      H.cdr? p = some r ∧ Node H q f ∧ Nodes H r es

/-- The elements of the list at `p` are nodes that stand for expressions. -/
def Nodes (H : Heap) : Ptr → List SExpr → Prop
  | p, [] => p = schemeNull
  | p, e :: es => p ≠ schemeNull ∧ ∃ q r, H.car? p = some q ∧ H.cdr? p = some r ∧ Node H q e ∧
      Nodes H r es

end

/-! ## Larger heaps -/

section Sub

variable {ext : Externals} {H H' : Heap} {p q r : Ptr} {e : SExpr} {k : Keyword}

theorem IsPair.sub (h : IsPair H p q r) (hsub : H.Sub H') : IsPair H' p q r :=
  ⟨hsub.type? h.1, hsub.car? h.2.1, hsub.cdr? h.2.2⟩

theorem IsKeyword.sub (h : IsKeyword ext H p k) (hsub : H.Sub H') : IsKeyword ext H' p k := by
  obtain ⟨ht, name, hname, hk⟩ := h
  exact ⟨hsub.type? ht, name, hsub.symbolVal? hname, hk⟩

theorem IsOperator.sub (h : IsOperator ext H p) (hsub : H.Sub H') : IsOperator ext H' p := by
  rcases h with ht | ⟨ht, name, hname, hk⟩
  · exact Or.inl (hsub.type? ht)
  · exact Or.inr ⟨hsub.type? ht, name, hsub.symbolVal? hname, hk⟩

theorem IsLiteral.sub (h : IsLiteral H p) (hsub : H.Sub H') : IsLiteral H' p :=
  h.imp fun _ ⟨ht, h⟩ => ⟨hsub.type? ht, h⟩

mutual

/-- What is read at an address is read there in every larger heap. -/
theorem Reads.sub (hsub : H.Sub H') : ∀ {e : SExpr} {p : Ptr}, Reads ext H p e → Reads ext H' p e
  | .const _, _, .inl ⟨h, hc⟩ => .inl ⟨h.sub hsub, hc⟩
  | .const _, _, .inr ⟨k, r, h₁, hk, h₂⟩ => .inr ⟨k, r, h₁.sub hsub, hk.sub hsub, h₂.sub hsub⟩
  | .var _, _, ⟨hx, ht⟩ => ⟨hx, hsub.type? ht⟩
  | .ite _ _ _, _, ⟨k, p₁, p₂, p₃, hs, hk, h₁, h₂, h₃⟩ =>
    ⟨k, p₁, p₂, p₃, hs.sub hsub, hk.sub hsub, h₁.sub hsub, h₂.sub hsub, h₃.sub hsub⟩
  | .lambda _ _, _, ⟨k, r, vars, b, h₁, hk, h₂, hs, hne, hb⟩ =>
    ⟨k, r, vars, b, h₁.sub hsub, hk.sub hsub, h₂.sub hsub, hs.sub hsub, hne, ReadsAll.sub hsub hb⟩
  | .define _ _, _, ⟨k, p₁, hs, hk, hx, h⟩ =>
    ⟨k, p₁, hs.sub hsub, hk.sub hsub, hsub.type? hx, h.sub hsub⟩
  | .defun _ _ _, _, ⟨k, r, h, vars, b, h₁, hk, h₂, h₃, hs, hne, hb⟩ =>
    ⟨k, r, h, vars, b, h₁.sub hsub, hk.sub hsub, h₂.sub hsub, h₃.sub hsub, hs.sub hsub, hne,
      ReadsAll.sub hsub hb⟩
  | .begin _, _, ⟨k, r, h, hk, hne, hb⟩ =>
    ⟨k, r, h.sub hsub, hk.sub hsub, hne, ReadsAll.sub hsub hb⟩
  | .app _ _, _, ⟨k, r, h, hk, hf, hes⟩ =>
    ⟨k, r, h.sub hsub, hk.sub hsub, hf.sub hsub, ReadsAll.sub hsub hes⟩

theorem ReadsAll.sub (hsub : H.Sub H') :
    ∀ {es : List SExpr} {p : Ptr}, ReadsAll ext H p es → ReadsAll ext H' p es
  | [], _, h => h
  | _ :: _, _, ⟨q, r, h, he, hes⟩ => ⟨q, r, h.sub hsub, he.sub hsub, ReadsAll.sub hsub hes⟩

end

mutual

/-- A node is one in every larger heap. -/
theorem Node.sub (hsub : H.Sub H') : ∀ {e : SExpr} {p : Ptr}, Node H p e → Node H' p e
  | .const _, _, ⟨ht, hc⟩ => ⟨ht.imp hsub.type? hsub.type?, hsub.car? hc⟩
  | .var _, _, ⟨ht, hx⟩ => ⟨hsub.type? ht, hsub.car? hx⟩
  | .ite _ _ _, _, ⟨ht, p₁, arms, p₂, p₃, h₁, h₂, h₃, h₄, n₁, n₂, n₃⟩ =>
    ⟨hsub.type? ht, p₁, arms, p₂, p₃, hsub.car? h₁, hsub.cdr? h₂, hsub.car? h₃, hsub.cdr? h₄,
      n₁.sub hsub, n₂.sub hsub, n₃.sub hsub⟩
  | .lambda _ _, _, ⟨ht, vars, b, h₁, h₂, hs, hne, hb⟩ =>
    ⟨hsub.type? ht, vars, b, hsub.car? h₁, hsub.cdr? h₂, hs.sub hsub, hne, Nodes.sub hsub hb⟩
  | .define _ _, _, ⟨ht, p₁, h₁, h₂, n⟩ =>
    ⟨hsub.type? ht, p₁, hsub.car? h₁, hsub.cdr? h₂, n.sub hsub⟩
  | .defun _ _ _, _, ⟨ht, r, vars, b, h₁, h₂, h₃, h₄, hs, hne, hb⟩ =>
    ⟨hsub.type? ht, r, vars, b, hsub.car? h₁, hsub.cdr? h₂, hsub.car? h₃, hsub.cdr? h₄,
      hs.sub hsub, hne, Nodes.sub hsub hb⟩
  | .begin _, _, ⟨ht, hne, hb⟩ => ⟨hsub.type? ht, hne, Nodes.sub hsub hb⟩
  | .app _ _, _, ⟨ht, q, r, h₁, h₂, n, ns⟩ =>
    ⟨hsub.type? ht, q, r, hsub.car? h₁, hsub.cdr? h₂, n.sub hsub, Nodes.sub hsub ns⟩

theorem Nodes.sub (hsub : H.Sub H') : ∀ {es : List SExpr} {p : Ptr}, Nodes H p es → Nodes H' p es
  | [], _, h => h
  | _ :: _, _, ⟨hne, q, r, h₁, h₂, n, ns⟩ =>
    ⟨hne, q, r, hsub.car? h₁, hsub.cdr? h₂, n.sub hsub, Nodes.sub hsub ns⟩

end

end Sub

/-! ## Constants -/

section Constants

variable {H H' : Heap} {p q : Ptr} {e : SExpr}

/-- The constants are where they should be.  An empty sequence makes `schemeNull` look like an
analyzed expression, which does no harm, and `schemeVoid` has a type that was never set. -/
structure Constants (H : Heap) : Prop where
  null : ∃ t, H.obj? schemeNull = some ⟨t, .const⟩ ∧ (t = .null ∨ t.IsExpr)
  void : H.type? schemeVoid = some .env
  false : H.type? schemeFalse = some .bool

theorem Constants.sub (h : Constants H) (hsub : H.Sub H') : Constants H' := by
  obtain ⟨t, hnull, ht⟩ := h.null
  exact ⟨⟨t, hsub _ _ hnull, ht⟩, hsub.type? h.void, hsub.type? h.false⟩

/-- What has a car is not `scheme_null`. -/
theorem Constants.ne_null_of_car? (h : Constants H) (hp : H.car? p = some q) : p ≠ schemeNull := by
  rintro rfl
  obtain ⟨t, hnull, -⟩ := h.null
  rw [Heap.car?, hnull] at hp
  simp at hp

/-- A node is an analyzed expression. -/
theorem Node.isExpr (h : Node H p e) : ∃ t, H.type? p = some t ∧ t.IsExpr := by
  cases e <;> rw [Node] at h
  case const => exact h.1.elim (fun ht => ⟨_, ht, by decide⟩) fun ht => ⟨_, ht, by decide⟩
  all_goals exact ⟨_, h.1, by decide⟩

/-- No node is at `scheme_void`. -/
theorem Node.ne_void (h : Node H p e) (hc : Constants H) : p ≠ schemeVoid := by
  rintro rfl
  obtain ⟨t, ht, hexpr⟩ := h.isExpr
  rw [hc.void, Option.some.injEq] at ht
  subst ht
  exact absurd hexpr (by decide)

/-- Every node has a car. -/
theorem Node.exists_car : ∀ {e : SExpr} {p : Ptr}, Node H p e → ∃ q, H.car? p = some q
  | .const _, _, h => ⟨_, h.2⟩
  | .var _, _, h => ⟨_, h.2⟩
  | .ite .., _, ⟨_, _, _, _, _, h, _⟩ => ⟨_, h⟩
  | .lambda .., _, ⟨_, _, _, h, _⟩ => ⟨_, h⟩
  | .define .., _, ⟨_, _, h, _⟩ => ⟨_, h⟩
  | .defun .., _, ⟨_, _, _, _, h, _⟩ => ⟨_, h⟩
  | .begin [], _, ⟨_, hne, _⟩ => absurd rfl hne
  | .begin (_ :: _), _, ⟨_, _, _, _, _, h, _⟩ => ⟨_, h⟩
  | .app .., _, ⟨_, _, _, h, _⟩ => ⟨_, h⟩

theorem Node.ne_null (h : Node H p e) (hc : Constants H) : p ≠ schemeNull := by
  obtain ⟨q, hq⟩ := h.exists_car
  exact hc.ne_null_of_car? hq

end Constants

end SchemeOs
