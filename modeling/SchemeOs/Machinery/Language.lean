import SchemeOs.Machinery.Scopes

/-!
# Machinery/Language — a small lexically scoped language

Expressions over names `K` and constants `C`, with closures as values, and their big-step semantics
on a store of scopes: the operator of an application is evaluated first and then the operands from
left to right, and a definition binds a name in the scope it is evaluated in and yields the constant
that stands for the name.
-/

namespace SchemeOs

inductive Expr (K C : Type) where
  | const (c : C)
  | var (x : K)
  | ite (p c a : Expr K C)
  | lambda (params : List K) (body : List (Expr K C))
  | define (x : K) (e : Expr K C)
  | defun (f : K) (params : List K) (body : List (Expr K C))
  | begin (es : List (Expr K C))
  | app (f : Expr K C) (args : List (Expr K C))

/-- A closure is made of its parameters, its body and the scope it was made in. -/
inductive Value (K C : Type) where
  | const (c : C)
  | closure (params : List K) (body : List (Expr K C)) (scope : ℕ)

/-- What there is to evaluate: an expression, expressions in sequence for the value of the last, or
operands for the values of all. -/
inductive Task (K C : Type) where
  | expr (e : Expr K C)
  | seq (es : List (Expr K C))
  | args (es : List (Expr K C))

section Semantics

variable {K C : Type} [DecidableEq K]

/-- The parameters bound to the values. -/
def bindParams : List K → List (Value K C) → K → Option (Value K C)
  | x :: xs, v :: vs, y => if x = y then some v else bindParams xs vs y
  | _, _, _ => none

/-- **The big-step semantics**: evaluation of a task in a scope turns one store into another and
yields values.  `symbol` is the constant for a name, and `falsity` the one that is not true. -/
inductive Evaluates (symbol : K → C) (falsity : C) : Scopes K (Value K C) → ℕ → Task K C →
    List (Value K C) → Scopes K (Value K C) → Prop where
  | const {σ : Scopes K (Value K C)} {i : ℕ} {c : C} :
      Evaluates symbol falsity σ i (.expr (.const c)) [.const c] σ
  | var {σ : Scopes K (Value K C)} {i : ℕ} {x : K} {v : Value K C} (hv : σ.lookup i x = some v) :
      Evaluates symbol falsity σ i (.expr (.var x)) [v] σ
  | iteTrue {σ τ υ : Scopes K (Value K C)} {i : ℕ} {p c a : Expr K C} {u v : Value K C}
      (hp : Evaluates symbol falsity σ i (.expr p) [u] τ) (hu : u ≠ .const falsity)
      (hc : Evaluates symbol falsity τ i (.expr c) [v] υ) :
      Evaluates symbol falsity σ i (.expr (.ite p c a)) [v] υ
  | iteFalse {σ τ υ : Scopes K (Value K C)} {i : ℕ} {p c a : Expr K C} {v : Value K C}
      (hp : Evaluates symbol falsity σ i (.expr p) [.const falsity] τ)
      (ha : Evaluates symbol falsity τ i (.expr a) [v] υ) :
      Evaluates symbol falsity σ i (.expr (.ite p c a)) [v] υ
  | lambda {σ : Scopes K (Value K C)} {i : ℕ} {xs : List K} {body : List (Expr K C)} :
      Evaluates symbol falsity σ i (.expr (.lambda xs body)) [.closure xs body i] σ
  | define {σ τ : Scopes K (Value K C)} {i : ℕ} {x : K} {e : Expr K C} {v : Value K C}
      (he : Evaluates symbol falsity σ i (.expr e) [v] τ) :
      Evaluates symbol falsity σ i (.expr (.define x e)) [.const (symbol x)] (τ.define i x v)
  | defun {σ : Scopes K (Value K C)} {i : ℕ} {f : K} {xs : List K} {body : List (Expr K C)} :
      Evaluates symbol falsity σ i (.expr (.defun f xs body)) [.const (symbol f)]
        (σ.define i f (.closure xs body i))
  | begin {σ τ : Scopes K (Value K C)} {i : ℕ} {es : List (Expr K C)} {v : Value K C}
      (hes : Evaluates symbol falsity σ i (.seq es) [v] τ) :
      Evaluates symbol falsity σ i (.expr (.begin es)) [v] τ
  | app {σ τ υ ω : Scopes K (Value K C)} {i j : ℕ} {f : Expr K C} {es body : List (Expr K C)}
      {xs : List K} {vs : List (Value K C)} {v : Value K C}
      (hf : Evaluates symbol falsity σ i (.expr f) [.closure xs body j] τ)
      (hargs : Evaluates symbol falsity τ i (.args es) vs υ) (hlen : vs.length = xs.length)
      (hbody : Evaluates symbol falsity (υ.extend j (bindParams xs vs)) υ.size (.seq body) [v] ω) :
      Evaluates symbol falsity σ i (.expr (.app f es)) [v] ω
  | seqLast {σ τ : Scopes K (Value K C)} {i : ℕ} {e : Expr K C} {v : Value K C}
      (he : Evaluates symbol falsity σ i (.expr e) [v] τ) :
      Evaluates symbol falsity σ i (.seq [e]) [v] τ
  | seqCons {σ τ υ : Scopes K (Value K C)} {i : ℕ} {e e' : Expr K C} {es : List (Expr K C)}
      {u v : Value K C} (he : Evaluates symbol falsity σ i (.expr e) [u] τ)
      (hes : Evaluates symbol falsity τ i (.seq (e' :: es)) [v] υ) :
      Evaluates symbol falsity σ i (.seq (e :: e' :: es)) [v] υ
  | argsNil {σ : Scopes K (Value K C)} {i : ℕ} : Evaluates symbol falsity σ i (.args []) [] σ
  | argsCons {σ τ υ : Scopes K (Value K C)} {i : ℕ} {e : Expr K C} {es : List (Expr K C)}
      {v : Value K C} {vs : List (Value K C)}
      (he : Evaluates symbol falsity σ i (.expr e) [v] τ)
      (hes : Evaluates symbol falsity τ i (.args es) vs υ) :
      Evaluates symbol falsity σ i (.args (e :: es)) (v :: vs) υ

end Semantics

end SchemeOs
