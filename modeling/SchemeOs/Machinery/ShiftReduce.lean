import Mathlib.Data.List.Basic
import Mathlib.Logic.Relation
import Mathlib.Data.Nat.Notation

/-!
# Machinery/ShiftReduce — grammars with values, and parsers with a stack

A production of a grammar has an action, which makes the value of its left side from those of its
right side.  A table says what a parser with a stack of states does next.  `Sound` is what a table
must satisfy for every result to be the value of a derivation, `Complete` for every value of a
derivation to be the result; both are about single entries of the table, and not about runs.
-/

namespace SchemeOs.Parsing

/-- A symbol of a grammar. -/
inductive Letter (T N : Type*) where
  | terminal (t : T)
  | nonterminal (n : N)
  deriving DecidableEq

/-- A production, with the action that makes its value. -/
structure Production (T N V : Type*) where
  lhs : N
  rhs : List (Letter T N)
  act : List V → Option V

/-- A grammar for tokens of type `τ`; a token may be unknown to it. -/
structure Grammar (τ T N V : Type*) where
  prods : List (Production T N V)
  start : N
  kind : τ → Option T
  leaf : τ → V

variable {τ T N V : Type*}

namespace Grammar

/-- The symbols derive the tokens, with these values. -/
inductive Derives (G : Grammar τ T N V) : List (Letter T N) → List τ → List V → Prop where
  | nil : Derives G [] [] []
  | terminal {t tk Xs ts vs} : G.kind tk = some t → Derives G Xs ts vs →
      Derives G (.terminal t :: Xs) (tk :: ts) (G.leaf tk :: vs)
  | nonterminal {k : ℕ} {p : Production T N V} {ts ws v Xs us vs} : G.prods[k]? = some p →
      Derives G p.rhs ts ws → p.act ws = some v → Derives G Xs us vs →
        Derives G (.nonterminal p.lhs :: Xs) (ts ++ us) (v :: vs)

variable {G : Grammar τ T N V} {Xs Ys : List (Letter T N)} {ts us : List τ} {vs ws : List V} {v : V}
  {n : N} {t : T} {tk : τ}

theorem Derives.append (h : G.Derives Xs ts vs) (h' : G.Derives Ys us ws) :
    G.Derives (Xs ++ Ys) (ts ++ us) (vs ++ ws) := by
  induction h with
  | nil => exact h'
  | terminal hk _ ih => exact .terminal hk ih
  | nonterminal hp hrhs hact _ _ ih =>
    rw [List.append_assoc]
    exact .nonterminal hp hrhs hact ih

theorem Derives.length_eq (h : G.Derives Xs ts vs) : vs.length = Xs.length := by
  induction h with
  | nil => rfl
  | terminal _ _ ih => exact congrArg (· + 1) ih
  | nonterminal _ _ _ _ _ ih => exact congrArg (· + 1) ih

/-- A derivation of one nonterminal. -/
theorem Derives.single {k : ℕ} {p : Production T N V} (hp : G.prods[k]? = some p)
    (h : G.Derives p.rhs ts vs) (hact : p.act vs = some v) :
    G.Derives [.nonterminal p.lhs] ts [v] := by
  have hone := Derives.nonterminal hp h hact .nil
  rwa [List.append_nil] at hone

theorem Derives.exists_of_single (h : G.Derives [.nonterminal n] ts vs) :
    ∃ (k : ℕ) (p : Production T N V) (ws : List V) (v : V), G.prods[k]? = some p ∧ p.lhs = n ∧
      vs = [v] ∧ G.Derives p.rhs ts ws ∧ p.act ws = some v := by
  generalize hX : [Letter.nonterminal n] = X at h
  cases h with
  | nil => cases hX
  | terminal _ _ => cases hX
  | @nonterminal k p _ ws v _ _ _ hp hrhs hact hrest =>
    cases hX
    cases hrest
    exact ⟨k, p, ws, v, hp, rfl, rfl, by rwa [List.append_nil], hact⟩

theorem Derives.cons {X : Letter T N} (h : G.Derives [X] ts [v]) (h' : G.Derives Xs us vs) :
    G.Derives (X :: Xs) (ts ++ us) (v :: vs) :=
  h.append h'

/-- A property of values that the actions keep holds of every derivation from tokens with `Q`. -/
theorem Derives.forall₂ {Q : τ → Prop} {P : Letter T N → V → Prop} (h : G.Derives Xs ts vs)
    (hts : ∀ tk ∈ ts, Q tk)
    (hleaf : ∀ t tk, G.kind tk = some t → Q tk → P (.terminal t) (G.leaf tk))
    (hact : ∀ p ∈ G.prods, ∀ ws v, List.Forall₂ P p.rhs ws → p.act ws = some v →
      P (.nonterminal p.lhs) v) : List.Forall₂ P Xs vs := by
  induction h with
  | nil => exact .nil
  | terminal hk _ ih =>
    rw [List.forall_mem_cons] at hts
    exact .cons (hleaf _ _ hk hts.1) (ih hts.2)
  | nonterminal hp _ hv _ ih ih' =>
    rw [List.forall_mem_append] at hts
    exact .cons (hact _ (List.mem_of_getElem? hp) _ _ (ih hts.1) hv) (ih' hts.2)

/-- The kind of the next token, or the end; there is none if the token is unknown. -/
def lookahead (G : Grammar τ T N V) : List τ → Option (Option T)
  | [] => some none
  | tk :: _ => (G.kind tk).map some

/-! ## What a derivation begins with -/

/-- Which nonterminals derive nothing, and what they can begin with. -/
structure Firsts (G : Grammar τ T N V) where
  nullable : N → Prop
  first : N → T → Prop

namespace Firsts

/-- What the symbols, followed by `a`, may begin with. -/
def Begins (F : G.Firsts) : List (Letter T N) → Option T → Option T → Prop
  | [], a, b => b = a
  | .terminal t :: _, _, b => b = some t
  | .nonterminal n :: Xs, a, b =>
    (∃ t, b = some t ∧ F.first n t) ∨ F.nullable n ∧ F.Begins Xs a b

/-- What a production begins with, its left side does. -/
structure Closed (F : G.Firsts) : Prop where
  nullable : ∀ (k : ℕ) (p : Production T N V), G.prods[k]? = some p →
    F.Begins p.rhs none none → F.nullable p.lhs
  first : ∀ (k : ℕ) (p : Production T N V) (t : T), G.prods[k]? = some p →
    F.Begins p.rhs none (some t) → F.first p.lhs t

/-- **The next token** is one that the symbols may begin with. -/
theorem Closed.lookahead {F : G.Firsts} (hF : F.Closed) (h : G.Derives Xs ts vs) {us : List τ}
    {a : Option T} (ha : G.lookahead us = some a) :
    ∃ b, G.lookahead (ts ++ us) = some b ∧ F.Begins Xs a b := by
  induction h generalizing us a with
  | nil => exact ⟨a, ha, rfl⟩
  | terminal hk _ _ => exact ⟨_, congrArg (Option.map some) hk, rfl⟩
  | @nonterminal k p ts ws v Xs us' vs hp _ _ _ ih ih' =>
    obtain ⟨b, hb, hbegins⟩ := ih (show G.lookahead [] = some none from rfl)
    obtain ⟨c, hc, hrest⟩ := ih' ha
    rw [List.append_assoc]
    cases ts with
    | nil =>
      obtain rfl : none = b := Option.some.inj hb
      exact ⟨c, hc, .inr ⟨hF.nullable k p hp hbegins, hrest⟩⟩
    | cons tk ts =>
      obtain ⟨t, ht, rfl⟩ := Option.map_eq_some_iff.mp hb
      exact ⟨_, hb, .inl ⟨t, rfl, hF.first k p t hp hbegins⟩⟩

end Firsts

end Grammar

/-! ## The parser -/

/-- What the table says. -/
inductive Move where
  | shift (s : ℕ)
  | reduce (k : ℕ)
  | accept
  | fail
  deriving DecidableEq

/-- A table: the move for a state and the next token, if there is one, and the state after a
nonterminal. -/
structure Table (T N : Type*) where
  move : ℕ → Option T → Move
  goto : ℕ → N → Option ℕ

/-- The stacks of states and of values, the last ones first, and the tokens to come. -/
structure Config (τ V : Type*) where
  states : List ℕ
  values : List V
  input : List τ

namespace Table

variable {G : Grammar τ T N V} {A : Table T N} {c d : Config τ V} {s s' k : ℕ} {ss : List ℕ}
  {Xs Ys : List (Letter T N)} {ts us : List τ} {vs ws : List V} {v : V}

/-- The reduction by a production. -/
def reduce (A : Table T N) (p : Production T N V) (c : Config τ V) : Option (Config τ V) :=
  (p.act (c.values.take p.rhs.length).reverse).bind fun v =>
    (c.states.drop p.rhs.length).head?.bind fun s =>
      (A.goto s p.lhs).map fun s' =>
        ⟨s' :: c.states.drop p.rhs.length, v :: c.values.drop p.rhs.length, c.input⟩

/-- A step, which accepts with a value or goes on. -/
def step (G : Grammar τ T N V) (A : Table T N) (c : Config τ V) : Option (V ⊕ Config τ V) :=
  c.states.head?.bind fun s =>
    (G.lookahead c.input).bind fun a =>
      match A.move s a with
      | .shift s' =>
        match c.input with
        | [] => none
        | tk :: input => some (.inr ⟨s' :: c.states, G.leaf tk :: c.values, input⟩)
      | .reduce k => (G.prods[k]?).bind fun p => (A.reduce p c).map .inr
      | .accept => c.values.head?.map .inl
      | .fail => none

/-- At most `fuel` steps. -/
def parse (G : Grammar τ T N V) (A : Table T N) : ℕ → Config τ V → Option V
  | 0, _ => none
  | fuel + 1, c => (step G A c).bind fun r => r.elim some (parse G A fuel)

/-- The configuration that a parse begins with. -/
def init (ts : List τ) : Config τ V := ⟨[0], [], ts⟩

/-- The parser accepts the tokens with the value `v`. -/
def Accepts (G : Grammar τ T N V) (A : Table T N) (ts : List τ) (v : V) : Prop :=
  ∃ fuel, parse G A fuel (init ts) = some v

theorem parse_of_step {n : ℕ} (h : step G A c = some (.inr d)) :
    parse G A (n + 1) c = parse G A n d := by
  rw [parse, h]
  rfl

/-- A step that goes on. -/
def Steps (G : Grammar τ T N V) (A : Table T N) (c d : Config τ V) : Prop :=
  step G A c = some (.inr d)

theorem exists_parse_of_steps (h : Relation.ReflTransGen (Steps G A) c d) {n : ℕ}
    (hd : parse G A n d = some v) : ∃ n, parse G A n c = some v := by
  induction h using Relation.ReflTransGen.head_induction_on with
  | refl => exact ⟨n, hd⟩
  | head hstep _ ih =>
    obtain ⟨m, hm⟩ := ih
    exact ⟨m + 1, (parse_of_step hstep).trans hm⟩

theorem parse_eq_none_of_steps (h : Relation.ReflTransGen (Steps G A) c d)
    (hd : step G A d = none) (n : ℕ) : parse G A n c = none := by
  induction h using Relation.ReflTransGen.head_induction_on generalizing n with
  | refl =>
    cases n with
    | zero => rfl
    | succ n => rw [parse, hd, Option.bind_none]
  | head hstep _ ih =>
    cases n with
    | zero => rfl
    | succ n => rw [parse_of_step hstep, ih]

theorem accepts_of_steps (h : Relation.ReflTransGen (Steps G A) (init ts) c)
    (hc : step G A c = some (.inl v)) : Accepts G A ts v := by
  refine exists_parse_of_steps h (n := 1) ?_
  rw [parse, hc, Option.bind_some, Sum.elim_inl]

theorem step_shift {t : T} {tk : τ} (hkind : G.kind tk = some t)
    (h : A.move s (some t) = .shift s') :
    Steps G A ⟨s :: ss, vs, tk :: ts⟩ ⟨s' :: s :: ss, G.leaf tk :: vs, ts⟩ := by
  simp only [Steps, step, List.head?_cons, Grammar.lookahead, hkind, Option.map_some,
    Option.bind_some, h]

theorem step_reduce {a : Option T} {p : Production T N V} {top : List ℕ}
    (ha : G.lookahead ts = some a) (hp : G.prods[k]? = some p)
    (hhead : (top ++ s :: ss).head? = some s') (h : A.move s' a = .reduce k)
    (htop : top.length = p.rhs.length) (hws : ws.length = p.rhs.length)
    (hact : p.act ws = some v) {s'' : ℕ} (hgoto : A.goto s p.lhs = some s'') :
    Steps G A ⟨top ++ s :: ss, ws.reverse ++ vs, ts⟩ ⟨s'' :: s :: ss, v :: vs, ts⟩ := by
  have htake : ((ws.reverse ++ vs).take p.rhs.length).reverse = ws := by
    rw [List.take_left' (by rw [List.length_reverse, hws]), List.reverse_reverse]
  have hvalues : (ws.reverse ++ vs).drop p.rhs.length = vs :=
    List.drop_left' (by rw [List.length_reverse, hws])
  have hstates : (top ++ s :: ss).drop p.rhs.length = s :: ss := List.drop_left' htop
  simp only [Steps, step, hhead, ha, Option.bind_some, h, hp, reduce, htake, hvalues, hstates,
    hact, List.head?_cons, hgoto, Option.map_some]

/-! ## Every derivation is found

The run follows the derivation from the left, with the items of the states as a guide. -/

/-- For each state the positions in productions that the parser may be at, each with a token that
may come after the production. -/
structure Complete (G : Grammar τ T N V) (A : Table T N) where
  firsts : G.Firsts
  closed : firsts.Closed
  /-- state, production, position, token after it -/
  item : ℕ → ℕ → ℕ → Option T → Prop
  begins : ∀ (k : ℕ) (p : Production T N V), G.prods[k]? = some p → p.lhs = G.start →
    item 0 k 0 none
  shift : ∀ (s k i : ℕ) (a : Option T) (p : Production T N V) (t : T), item s k i a →
    G.prods[k]? = some p → p.rhs[i]? = some (.terminal t) →
      ∃ s', A.move s (some t) = .shift s' ∧ item s' k (i + 1) a
  goto : ∀ (s k i : ℕ) (a : Option T) (p : Production T N V) (n : N), item s k i a →
    G.prods[k]? = some p → p.rhs[i]? = some (.nonterminal n) →
      ∃ s', A.goto s n = some s' ∧ item s' k (i + 1) a
  close : ∀ (s k i j : ℕ) (a b : Option T) (p q : Production T N V), item s k i a →
    G.prods[k]? = some p → p.rhs[i]? = some (.nonterminal q.lhs) → G.prods[j]? = some q →
      firsts.Begins (p.rhs.drop (i + 1)) a b → item s j 0 b
  reduce : ∀ (s k : ℕ) (a : Option T) (p : Production T N V), G.prods[k]? = some p →
    item s k p.rhs.length a → A.move s a = .reduce k
  accept : ∃ s, A.goto 0 G.start = some s ∧ A.move s none = .accept

/-- From a state that is before `Xs` in a production, the parser comes to one that is behind the
production, with the values of a derivation on the stack. -/
theorem Complete.steps (C : Complete G A) (h : G.Derives Xs ts vs) {i : ℕ} {a : Option T}
    {p : Production T N V} (hitem : C.item s k i a) (hp : G.prods[k]? = some p)
    (hXs : p.rhs.drop i = Xs) (hi : i + Xs.length = p.rhs.length) (ha : G.lookahead us = some a)
    (ss : List ℕ) (ws : List V) :
    ∃ top s', top.length = Xs.length ∧ (top ++ s :: ss).head? = some s' ∧
      C.item s' k p.rhs.length a ∧ Relation.ReflTransGen (Steps G A) ⟨s :: ss, ws, ts ++ us⟩
        ⟨top ++ s :: ss, vs.reverse ++ ws, us⟩ := by
  induction h generalizing s ss ws us k i a p with
  | nil =>
    obtain rfl : i = p.rhs.length := hi
    exact ⟨[], s, rfl, rfl, hitem, .refl⟩
  | @terminal t tk Xs ts vs hkind _ ih =>
    have hget : p.rhs[i]? = some (.terminal t) := by
      rw [← List.head?_drop, hXs, List.head?_cons]
    obtain ⟨s₁, hmove, hitem₁⟩ := C.shift s k i a p t hitem hp hget
    have hrest : p.rhs.drop (i + 1) = Xs := by rw [← List.tail_drop, hXs, List.tail_cons]
    obtain ⟨top, s', htop, hhead, hitem', hsteps⟩ := ih hitem₁ hp hrest
      (by rw [List.length_cons] at hi; omega) ha (s :: ss) (G.leaf tk :: ws)
    refine ⟨top ++ [s₁], s', by simp [htop], ?_, hitem', ?_⟩
    · rwa [List.append_assoc, List.singleton_append]
    · rw [List.append_assoc, List.reverse_cons, List.append_assoc]
      exact .head (step_shift hkind hmove) hsteps
  | @nonterminal j q ts us' v Xs ts' vs hq hderives hact hderives' ih ih' =>
    have hget : p.rhs[i]? = some (.nonterminal q.lhs) := by
      rw [← List.head?_drop, hXs, List.head?_cons]
    have hrest : p.rhs.drop (i + 1) = Xs := by rw [← List.tail_drop, hXs, List.tail_cons]
    obtain ⟨b, hb, hbegins⟩ := C.closed.lookahead hderives' ha
    -- the production `q` from its beginning to its reduction
    have hitem₀ := C.close s k i j a b p q hitem hp hget hq (hrest.symm ▸ hbegins)
    obtain ⟨top, s₁, htop, hhead, hitem₁, hsteps⟩ := ih hitem₀ hq
      (List.drop_zero ..) (Nat.zero_add _) hb ss ws
    obtain ⟨s₂, hgoto, hitem₂⟩ := C.goto s k i a p q.lhs hitem hp hget
    have hstep : Steps G A ⟨top ++ s :: ss, us'.reverse ++ ws, ts' ++ us⟩
        ⟨s₂ :: s :: ss, v :: ws, ts' ++ us⟩ :=
      step_reduce hb hq hhead (C.reduce s₁ j b q hq hitem₁) htop hderives.length_eq hact hgoto
    obtain ⟨top', s', htop', hhead', hitem', hsteps'⟩ := ih' hitem₂ hp hrest
      (by rw [List.length_cons] at hi; omega) ha (s :: ss) (v :: ws)
    refine ⟨top' ++ [s₂], s', by simp [htop'], ?_, hitem', ?_⟩
    · rwa [List.append_assoc, List.singleton_append]
    · rw [List.append_assoc, List.append_assoc, List.reverse_cons, List.append_assoc]
      exact (hsteps.tail hstep).trans hsteps'

/-- **Every derivation is found**, with its value. -/
theorem Complete.accepts (C : Complete G A) (h : G.Derives [.nonterminal G.start] ts [v]) :
    Accepts G A ts v := by
  obtain ⟨k, p, ws, v', hp, hlhs, hv, hderives, hact⟩ := h.exists_of_single
  obtain rfl : v = v' := (List.cons.inj hv).1
  obtain ⟨top, s', htop, hhead, hitem, hsteps⟩ := C.steps hderives
    (C.begins k p hp hlhs) hp (List.drop_zero ..) (Nat.zero_add _)
      (show G.lookahead [] = some none from rfl) [] []
  obtain ⟨s, hgoto, haccept⟩ := C.accept
  have hstep : Steps G A ⟨top ++ [0], ws.reverse ++ [], []⟩ ⟨[s, 0], [v], []⟩ :=
    step_reduce rfl hp hhead (C.reduce s' k none p hp hitem) htop hderives.length_eq hact
      (hlhs ▸ hgoto)
  rw [List.append_nil] at hsteps
  refine accepts_of_steps (hsteps.tail hstep) ?_
  simp only [step, List.head?_cons, Option.bind_some, Grammar.lookahead, haccept, Option.map_some]

/-! ## Every result is the value of a derivation -/

/-- For each state the symbols that are known to be on top of the stack, the last one first. -/
structure Sound (G : Grammar τ T N V) (A : Table T N) where
  past : ℕ → List (Letter T N)
  start : past 0 = []
  shift : ∀ s t s', A.move s (some t) = .shift s' → s' ≠ 0 ∧ past s' <+: .terminal t :: past s
  goto : ∀ s n s', A.goto s n = some s' → s' ≠ 0 ∧ past s' <+: .nonterminal n :: past s
  reduce : ∀ (s k : ℕ) (a : Option T) (p : Production T N V), A.move s a = .reduce k →
    G.prods[k]? = some p → p.rhs.reverse <+: past s
  accept : ∀ s a, A.move s a = .accept → a = none ∧ past s = [.nonterminal G.start] ∧
    ∀ s' n, A.goto s' n = some s → s' = 0

/-- The states and the values belong to symbols that derive the tokens read so far. -/
inductive Reads (G : Grammar τ T N V) (A : Table T N) :
    List ℕ → List V → List (Letter T N) → List τ → Prop where
  | init : Reads G A [0] [] [] []
  | terminal {s s' ss vs Xs ts t us v} : Reads G A (s :: ss) vs Xs ts →
      A.move s (some t) = .shift s' → G.Derives [.terminal t] us [v] →
        Reads G A (s' :: s :: ss) (v :: vs) (.terminal t :: Xs) (ts ++ us)
  | nonterminal {s s' ss vs Xs ts n us v} : Reads G A (s :: ss) vs Xs ts →
      A.goto s n = some s' → G.Derives [.nonterminal n] us [v] →
        Reads G A (s' :: s :: ss) (v :: vs) (.nonterminal n :: Xs) (ts ++ us)

theorem Sound.past_prefix (S : Sound G A) (h : Reads G A (s :: ss) vs Xs ts) : S.past s <+: Xs := by
  generalize hss : s :: ss = l at h
  induction h generalizing s ss with
  | init =>
    cases hss
    exact S.start.symm ▸ List.nil_prefix
  | terminal _ hmove _ ih =>
    cases hss
    exact (S.shift _ _ _ hmove).2.trans (List.cons_prefix_cons.mpr ⟨rfl, ih rfl⟩)
  | nonterminal _ hgoto _ ih =>
    cases hss
    exact (S.goto _ _ _ hgoto).2.trans (List.cons_prefix_cons.mpr ⟨rfl, ih rfl⟩)

/-- The symbols on top of the stack derive the tokens read last. -/
theorem Reads.pop {l : List ℕ} (h : Reads G A l vs Xs ts) (hYs : Ys <+: Xs) :
    ∃ ts₁ ts₂, ts = ts₁ ++ ts₂ ∧ Reads G A (l.drop Ys.length) (vs.drop Ys.length)
      (Xs.drop Ys.length) ts₁ ∧ G.Derives Ys.reverse ts₂ (vs.take Ys.length).reverse := by
  induction Ys generalizing l vs Xs ts with
  | nil => exact ⟨ts, [], (List.append_nil ts).symm, h, .nil⟩
  | cons Y Ys ih =>
    cases h with
    | init => cases List.prefix_nil.mp hYs
    | @terminal s s' ss vs Xs ts t us v hreads _ hone =>
      obtain ⟨rfl, htail⟩ := List.cons_prefix_cons.mp hYs
      obtain ⟨ts₁, ts₂, rfl, hrest, hderives⟩ := ih hreads htail
      refine ⟨ts₁, ts₂ ++ us, List.append_assoc .., hrest, ?_⟩
      simpa using hderives.append hone
    | @nonterminal s s' ss vs Xs ts n us v hreads _ hone =>
      obtain ⟨rfl, htail⟩ := List.cons_prefix_cons.mp hYs
      obtain ⟨ts₁, ts₂, rfl, hrest, hderives⟩ := ih hreads htail
      refine ⟨ts₁, ts₂ ++ us, List.append_assoc .., hrest, ?_⟩
      simpa using hderives.append hone

/-- What a step does: it shifts a token, reduces by a production, or accepts. -/
theorem step_cases {r : V ⊕ Config τ V} (h : step G A c = some r) :
    (∃ s ss t s' tk ts, c.states = s :: ss ∧ c.input = tk :: ts ∧ G.kind tk = some t ∧
      A.move s (some t) = .shift s' ∧ r = .inr ⟨s' :: c.states, G.leaf tk :: c.values, ts⟩) ∨
    (∃ s ss a k p d, c.states = s :: ss ∧ A.move s a = .reduce k ∧ G.prods[k]? = some p ∧
      A.reduce p c = some d ∧ r = .inr d) ∨
    ∃ s ss a v, c.states = s :: ss ∧ G.lookahead c.input = some a ∧ A.move s a = .accept ∧
      c.values.head? = some v ∧ r = .inl v := by
  obtain ⟨s, hs, h⟩ := Option.bind_eq_some_iff.mp h
  obtain ⟨a, ha, h⟩ := Option.bind_eq_some_iff.mp h
  obtain ⟨ss, hss⟩ := List.head?_eq_some_iff.mp hs
  cases hmove : A.move s a with
  | shift s' =>
    rw [hmove] at h
    cases hinput : c.input with
    | nil =>
      rw [hinput] at h
      cases h
    | cons tk ts =>
      rw [hinput] at ha h
      obtain ⟨t, ht, rfl⟩ := Option.map_eq_some_iff.mp ha
      exact .inl ⟨s, ss, t, s', tk, ts, hss, rfl, ht, hmove, (Option.some.inj h).symm⟩
  | reduce k =>
    rw [hmove] at h
    obtain ⟨p, hp, h⟩ := Option.bind_eq_some_iff.mp h
    obtain ⟨d, hd, hr⟩ := Option.map_eq_some_iff.mp h
    exact .inr (.inl ⟨s, ss, a, k, p, d, hss, hmove, hp, hd, hr.symm⟩)
  | accept =>
    rw [hmove] at h
    obtain ⟨v, hv, hr⟩ := Option.map_eq_some_iff.mp h
    exact .inr (.inr ⟨s, ss, a, v, hss, ha, hmove, hv, hr.symm⟩)
  | fail =>
    rw [hmove] at h
    cases h

theorem Sound.reads_step (S : Sound G A) (h : Reads G A c.states c.values Xs ts)
    (hstep : Steps G A c d) :
    ∃ Ys us, Reads G A d.states d.values Ys us ∧ us ++ d.input = ts ++ c.input := by
  rcases step_cases hstep with ⟨s, ss, t, s', tk, us, hss, hinput, hkind, hmove, hr⟩ |
    ⟨s, ss, a, k, p, d', hss, hmove, hp, hd, hr⟩ | ⟨s, ss, a, v, -, -, -, -, hr⟩
  · cases hr
    rw [hss] at h
    refine ⟨.terminal t :: Xs, ts ++ [tk], ?_, by rw [hinput, List.append_assoc]; rfl⟩
    dsimp only
    rw [hss]
    exact .terminal h hmove (.terminal hkind .nil)
  · cases hr
    rw [hss] at h
    obtain ⟨ts₁, ts₂, rfl, hrest, hderives⟩ :=
      h.pop ((S.reduce s k a p hmove hp).trans (S.past_prefix h))
    rw [List.length_reverse] at hrest hderives
    rw [List.reverse_reverse] at hderives
    obtain ⟨v, hv, hd⟩ := Option.bind_eq_some_iff.mp hd
    obtain ⟨s₁, hs₁, hd⟩ := Option.bind_eq_some_iff.mp hd
    obtain ⟨s₂, hgoto, rfl⟩ := Option.map_eq_some_iff.mp hd
    rw [hss] at hs₁
    obtain ⟨ss₁, hss₁⟩ := List.head?_eq_some_iff.mp hs₁
    refine ⟨.nonterminal p.lhs :: Xs.drop p.rhs.length, ts₁ ++ ts₂, ?_, rfl⟩
    dsimp only
    rw [hss, hss₁]
    rw [hss₁] at hrest
    exact .nonterminal hrest hgoto (.single hp hderives hv)
  · cases hr

/-- An accepting state has the whole input below it. -/
theorem Sound.derives_of_accept (S : Sound G A) (h : Reads G A c.states c.values Xs ts)
    (hstep : step G A c = some (.inl v)) :
    G.Derives [.nonterminal G.start] (ts ++ c.input) [v] := by
  rcases step_cases hstep with ⟨_, _, _, _, _, _, -, -, -, -, hr⟩ |
    ⟨_, _, _, _, _, _, -, -, -, -, hr⟩ | ⟨s, ss, a, v', hss, ha, hmove, hv, hr⟩
  · cases hr
  · cases hr
  · cases hr
    obtain ⟨rfl, hpast, hfrom⟩ := S.accept s a hmove
    have hinput : c.input = [] := by
      cases hc : c.input with
      | nil => rfl
      | cons tk us =>
        rw [hc] at ha
        obtain ⟨t, -, ht⟩ := Option.map_eq_some_iff.mp ha
        cases ht
    rw [hinput, List.append_nil]
    rw [hss] at h
    have hprefix := S.past_prefix h
    rw [hpast] at hprefix
    generalize hvs : c.values = values at h hv
    cases h with
    | init => cases List.prefix_nil.mp hprefix
    | terminal _ _ _ => cases (List.cons_prefix_cons.mp hprefix).1
    | nonterminal hreads hgoto hone =>
      obtain ⟨hn, -⟩ := List.cons_prefix_cons.mp hprefix
      cases hn
      obtain rfl := hfrom _ _ hgoto
      cases hv
      -- nothing goes to the state 0, so it is at the bottom
      cases hreads with
      | init => exact hone
      | terminal _ hmove _ => exact absurd rfl (S.shift _ _ _ hmove).1
      | nonterminal _ hgoto _ => exact absurd rfl (S.goto _ _ _ hgoto).1

/-- **Every result is the value of a derivation.** -/
theorem Sound.derives (S : Sound G A) (h : Accepts G A ts v) :
    G.Derives [.nonterminal G.start] ts [v] := by
  obtain ⟨fuel, h⟩ := h
  have hall : ∀ c Xs us, Reads G A c.states c.values Xs us → parse G A fuel c = some v →
      G.Derives [.nonterminal G.start] (us ++ c.input) [v] := by
    clear h
    induction fuel with
    | zero => exact fun _ _ _ _ h => absurd h (by simp [parse])
    | succ fuel ih =>
      intro c Xs us hreads h
      obtain ⟨r, hstep, h⟩ := Option.bind_eq_some_iff.mp h
      cases r with
      | inl v' =>
        cases h
        exact S.derives_of_accept hreads hstep
      | inr d =>
        obtain ⟨Ys, us', hreads', heq⟩ := S.reads_step hreads hstep
        rw [← heq]
        exact ih d Ys us' hreads' h
  exact hall (init ts) [] [] .init h

/-- **The parser accepts what the grammar derives**, with the same values. -/
theorem accepts_iff (S : Sound G A) (C : Complete G A) :
    Accepts G A ts v ↔ G.Derives [.nonterminal G.start] ts [v] :=
  ⟨S.derives, C.accepts⟩

/-! ## Where the parser stops -/

theorem Reads.length_eq {l : List ℕ} (h : Reads G A l vs Xs ts) : vs.length = Xs.length := by
  induction h with
  | init => rfl
  | terminal _ _ _ ih => exact congrArg (· + 1) ih
  | nonterminal _ _ _ ih => exact congrArg (· + 1) ih

theorem Reads.ne_nil {l : List ℕ} (h : Reads G A l vs Xs ts) : l ≠ [] := by
  cases h <;> exact List.cons_ne_nil _ _

/-- A run keeps what is known of the stacks. -/
theorem Sound.reads_run (S : Sound G A) (h : Relation.ReflTransGen (Steps G A) (init ts) c) :
    ∃ Xs us, Reads G A c.states c.values Xs us := by
  induction h with
  | refl => exact ⟨[], [], .init⟩
  | tail _ hstep ih =>
    obtain ⟨Xs, us, hreads⟩ := ih
    obtain ⟨Ys, us', hreads', -⟩ := S.reads_step hreads hstep
    exact ⟨Ys, us', hreads'⟩

/-- For each state the positions that the parser is at: a step over a symbol comes from the position
before it, and a production that may begin has a state to go on with. -/
structure Viable (G : Grammar τ T N V) (A : Table T N) where
  item : ℕ → ℕ → ℕ → Prop
  start : ∀ k i, item 0 k i → i = 0
  shift : ∀ s t s' k i, A.move s (some t) = .shift s' → item s' k (i + 1) → item s k i
  goto : ∀ s n s' k i, A.goto s n = some s' → item s' k (i + 1) → item s k i
  reduce : ∀ s k a, A.move s a = .reduce k →
    ∃ p, G.prods[k]? = some p ∧ item s k p.rhs.length
  next : ∀ (s s' k : ℕ) (a : Option T) (p : Production T N V), item s k 0 →
    A.move s' a = .reduce k → G.prods[k]? = some p → (A.goto s p.lhs).isSome
  ending : ∀ s s', A.move s none ≠ .shift s'

/-- The state where a production began. -/
theorem Viable.exists_drop (W : Viable G A) {i : ℕ} (h : Reads G A (s :: ss) vs Xs ts)
    (hitem : W.item s k i) : ∃ s₀ ss₀, (s :: ss).drop i = s₀ :: ss₀ ∧ W.item s₀ k 0 := by
  induction i generalizing s ss vs Xs ts with
  | zero => exact ⟨s, ss, rfl, hitem⟩
  | succ i ih =>
    cases h with
    | init => exact absurd (W.start k _ hitem) (Nat.succ_ne_zero i)
    | terminal hreads hmove _ => exact ih hreads (W.shift _ _ _ k i hmove hitem)
    | nonterminal hreads hgoto _ => exact ih hreads (W.goto _ _ _ k i hgoto hitem)

/-- The next token is unknown, or the state rejects it. -/
def Rejects (G : Grammar τ T N V) (A : Table T N) (c : Config τ V) : Prop :=
  G.lookahead c.input = none ∨
    ∃ s a, c.states.head? = some s ∧ G.lookahead c.input = some a ∧ A.move s a = .fail

/-- **The parser stops at a token only**, if all actions are defined on what the right sides derive.
-/
theorem Viable.rejects (W : Viable G A) (S : Sound G A)
    (hact : ∀ p ∈ G.prods, ∀ ts ws, G.Derives p.rhs ts ws → (p.act ws).isSome)
    (h : Relation.ReflTransGen (Steps G A) (init ts) c) (hnone : step G A c = none) :
    Rejects G A c := by
  obtain ⟨Xs, us, hreads⟩ := S.reads_run h
  obtain ⟨s, ss, hss⟩ := List.exists_cons_of_ne_nil hreads.ne_nil
  cases ha : G.lookahead c.input with
  | none => exact .inl ha
  | some a =>
    refine .inr ⟨s, a, by rw [hss, List.head?_cons], ha, ?_⟩
    simp only [step, hss, List.head?_cons, Option.bind_some, ha] at hnone
    rw [hss] at hreads
    cases hmove : A.move s a with
    | fail => rfl
    | shift s' =>
      rw [hmove] at hnone
      cases hinput : c.input with
      | nil =>
        rw [hinput] at ha
        cases ha
        exact absurd hmove (W.ending s s')
      | cons tk ts =>
        rw [hinput] at hnone
        cases hnone
    | reduce k =>
      obtain ⟨p, hp, hitem⟩ := W.reduce s k a hmove
      obtain ⟨s₀, ss₀, hdrop, hbegin⟩ := W.exists_drop hreads hitem
      obtain ⟨s', hs'⟩ := Option.isSome_iff_exists.mp (W.next s₀ s k a p hbegin hmove hp)
      obtain ⟨-, ts₂, -, -, hderives⟩ :=
        hreads.pop ((S.reduce s k a p hmove hp).trans (S.past_prefix hreads))
      rw [List.reverse_reverse, List.length_reverse] at hderives
      obtain ⟨v, hv⟩ := Option.isSome_iff_exists.mp
        (hact p (List.mem_of_getElem? hp) _ _ hderives)
      rw [hmove] at hnone
      simp only [hp, Option.bind_some, Table.reduce, hv, hss, hdrop, List.head?_cons, hs',
        Option.map_some] at hnone
      cases hnone
    | accept =>
      obtain ⟨-, hpast, -⟩ := S.accept s a hmove
      have hprefix := S.past_prefix hreads
      rw [hpast] at hprefix
      have hlength := hreads.length_eq
      have hone := hprefix.length_le
      rw [hmove] at hnone
      rw [Option.map_eq_none_iff, List.head?_eq_none_iff] at hnone
      rw [hnone] at hlength
      simp only [List.length_nil, List.length_singleton] at hlength hone
      omega

theorem parse_mono {n m : ℕ} (hnm : n ≤ m) (h : parse G A n c = some v) :
    parse G A m c = some v := by
  induction n generalizing m c with
  | zero => cases h
  | succ n ih =>
    obtain ⟨m, rfl⟩ : ∃ k, m = k + 1 := ⟨m - 1, by omega⟩
    obtain ⟨r, hstep, h⟩ := Option.bind_eq_some_iff.mp h
    rw [parse, hstep]
    cases r with
    | inl _ => exact h
    | inr d => exact ih (by omega) h

theorem Accepts.unique {v' : V} (h : Accepts G A ts v) (h' : Accepts G A ts v') : v = v' := by
  obtain ⟨n, hn⟩ := h
  obtain ⟨m, hm⟩ := h'
  exact Option.some.inj ((parse_mono (Nat.le_max_left n m) hn).symm.trans
    (parse_mono (Nat.le_max_right n m) hm))

/-- **A grammar with such a parser is unambiguous**: what it derives has one value. -/
theorem Complete.unambiguous (C : Complete G A) {v' : V}
    (h : G.Derives [.nonterminal G.start] ts [v]) (h' : G.Derives [.nonterminal G.start] ts [v']) :
    v = v' :=
  (C.accepts h).unique (C.accepts h')

/-! ## Every run ends

Between two tokens only so many reductions are possible. -/

/-- A rank of states that decreases by every reduction if the length of the stack does not. -/
structure Ranking (G : Grammar τ T N V) (A : Table T N) where
  rank : ℕ → ℕ
  /-- what a token is worth -/
  cost : ℕ
  shift : ∀ s t s', A.move s (some t) = .shift s' → rank s' + 1 < rank s + cost
  reduce : ∀ (s k : ℕ) (a : Option T) (p : Production T N V) (s₀ s' : ℕ), A.move s a = .reduce k →
    G.prods[k]? = some p → A.goto s₀ p.lhs = some s' → (p.rhs = [] → s₀ = s) →
      rank s' + 1 < rank s + p.rhs.length

namespace Ranking

variable {R : Ranking G A}

/-- What decreases by every step. -/
def measure (R : Ranking G A) (c : Config τ V) : ℕ :=
  c.states.head?.elim 0 R.rank + c.states.length + R.cost * c.input.length

theorem measure_lt (h : Steps G A c d) : R.measure d < R.measure c := by
  rcases step_cases h with ⟨s, ss, t, s', tk, ts, hss, hinput, -, hmove, hr⟩ |
    ⟨s, ss, a, k, p, d', hss, hmove, hp, hd, hr⟩ | ⟨_, _, _, _, -, -, -, -, hr⟩
  · cases hr
    have hrank := R.shift s t s' hmove
    simp only [measure, hss, hinput, List.head?_cons, Option.elim_some, List.length_cons,
      Nat.mul_add]
    omega
  · cases hr
    obtain ⟨v, -, hd⟩ := Option.bind_eq_some_iff.mp hd
    obtain ⟨s₀, hs₀, hd⟩ := Option.bind_eq_some_iff.mp hd
    obtain ⟨s', hgoto, rfl⟩ := Option.map_eq_some_iff.mp hd
    have hempty : p.rhs = [] → s₀ = s := by
      intro hrhs
      rw [hrhs, hss] at hs₀
      exact (Option.some.inj hs₀).symm
    have hrank := R.reduce s k a p s₀ s' hmove hp hgoto hempty
    have hlength : p.rhs.length < c.states.length := by
      by_contra hle
      rw [List.drop_eq_nil_of_le (Nat.le_of_not_lt hle)] at hs₀
      cases hs₀
    simp only [measure, List.head?_cons, Option.elim_some, List.length_cons, List.length_drop]
    rw [hss] at hlength ⊢
    simp only [List.head?_cons, Option.elim_some, List.length_cons] at hlength ⊢
    omega
  · cases hr

/-- More steps than the measure make no difference. -/
theorem parse_eq {n m : ℕ} (hn : R.measure c < n) (hm : R.measure c < m) :
    parse G A n c = parse G A m c := by
  induction n generalizing m c with
  | zero => omega
  | succ n ih =>
    obtain ⟨m, rfl⟩ : ∃ k, m = k + 1 := ⟨m - 1, by omega⟩
    rw [parse, parse]
    cases hstep : step G A c with
    | none => rfl
    | some r =>
      cases r with
      | inl v => rfl
      | inr d =>
        have hlt := measure_lt (R := R) hstep
        exact ih (by omega) (by omega)

/-- **The parser decides**: after so many steps it has accepted, or it never does. -/
theorem parse_iff (R : Ranking G A) {n : ℕ} (hn : R.measure (init ts : Config τ V) < n) :
    parse G A n (init ts) = some v ↔ Accepts G A ts v := by
  refine ⟨fun h => ⟨n, h⟩, ?_⟩
  rintro ⟨m, hm⟩
  rw [parse_eq hn (Nat.lt_of_lt_of_le hn (Nat.le_max_left n m))]
  exact parse_mono (Nat.le_max_right n m) hm

/-- Every run comes to a configuration that does not go on. -/
theorem exists_stop (R : Ranking G A) (c : Config τ V) :
    ∃ d, Relation.ReflTransGen (Steps G A) c d ∧ ∀ e, ¬Steps G A d e := by
  induction hn : R.measure c using Nat.strongRecOn generalizing c with
  | _ n ih =>
    by_cases hstep : ∃ d, Steps G A c d
    · obtain ⟨d, hd⟩ := hstep
      obtain ⟨e, he, hstop⟩ := ih _ (hn ▸ measure_lt hd) d rfl
      exact ⟨e, .head hd he, hstop⟩
    · exact ⟨c, .refl, not_exists.mp hstep⟩

end Ranking

end Table

end SchemeOs.Parsing
