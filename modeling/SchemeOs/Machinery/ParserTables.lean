import Mathlib.Data.Bool.AllAny
import SchemeOs.Machinery.ShiftReduce

/-!
# Machinery/ParserTables — what to check of a table

A table by rows, one for each state, with a move for all tokens that the row does not list.  `Past`
and `Slr` are certificates that the table is `Sound`, `Complete` and `Viable`: lists of symbols and
of positions for each state, and the tokens that may follow a nonterminal.  `Ranks` is one that
every run ends.  They are checked entry by entry.
-/

namespace SchemeOs.Parsing

variable {τ T N V : Type*}

/-- The entries of a state. -/
structure Row (T N : Type*) where
  moves : List (T × Move)
  gotos : List (N × ℕ)
  /-- the move at the end of the tokens, if it is not that for other tokens -/
  ending : Option Move
  /-- the move for other tokens -/
  other : Move

variable [DecidableEq T] [DecidableEq N]

/-- The move of a row. -/
def Row.move (r : Row T N) : Option T → Move
  | none => r.ending.getD r.other
  | some t => (r.moves.lookup t).getD r.other

/-- The table with these rows. -/
def Table.ofRows (rows : List (Row T N)) : Table T N where
  move s a := (rows[s]?).elim .fail fun r => r.move a
  goto s n := (rows[s]?).bind fun r => r.gotos.lookup n

namespace Table

variable {G : Grammar τ T N V} {rows : List (Row T N)} {r : Row T N} {s s' k : ℕ} {a : Option T}
  {m : Move}

theorem mem_of_lookup {α β : Type*} [BEq α] [LawfulBEq α] {x : α} {y : β} {l : List (α × β)}
    (h : l.lookup x = some y) : (x, y) ∈ l := by
  induction l with
  | nil => cases h
  | cons z l ih =>
    rw [List.lookup_cons] at h
    by_cases hx : x = z.1
    · subst hx
      rw [beq_self_eq_true] at h
      cases h
      exact List.mem_cons_self
    · rw [beq_false_of_ne hx] at h
      exact List.mem_cons_of_mem _ (ih h)

/-- A move of the table that is not `fail` stands in a row. -/
theorem move_cases (h : (ofRows rows).move s a = m) (hm : m ≠ .fail) :
    ∃ r, rows[s]? = some r ∧ ((∃ t, a = some t ∧ (t, m) ∈ r.moves) ∨
      (a = none ∧ r.ending = some m) ∨ r.other = m) := by
  cases hr : rows[s]? with
  | none =>
    simp only [ofRows, hr] at h
    exact absurd h.symm hm
  | some r =>
    simp only [ofRows, hr] at h
    change r.move a = m at h
    refine ⟨r, rfl, ?_⟩
    cases a with
    | none =>
      rw [Row.move] at h
      cases hending : r.ending with
      | none =>
        rw [hending] at h
        exact .inr (.inr h)
      | some m' =>
        rw [hending] at h
        exact .inr (.inl ⟨rfl, congrArg some h⟩)
    | some t =>
      rw [Row.move] at h
      cases hlookup : r.moves.lookup t with
      | none =>
        rw [hlookup] at h
        exact .inr (.inr h)
      | some m' =>
        rw [hlookup] at h
        obtain rfl : m' = m := h
        exact .inl ⟨t, rfl, mem_of_lookup hlookup⟩

theorem goto_cases {n : N} (h : (ofRows rows).goto s n = some s') :
    ∃ r, rows[s]? = some r ∧ (n, s') ∈ r.gotos := by
  obtain ⟨r, hr, hlookup⟩ := Option.bind_eq_some_iff.mp h
  exact ⟨r, hr, mem_of_lookup hlookup⟩

/-! ## Soundness

Row by row: the symbols that a reduction takes off the stack are those of its production. -/

/-- The symbols that are on top of the stack in each state, the last one first. -/
abbrev Past (T N : Type*) := List (List (Letter T N))

namespace Past

variable {P : Past T N}

/-- The symbols on top in the state `s`. -/
def top (P : Past T N) (s : ℕ) : List (Letter T N) := (P[s]?).getD []

/-- Going on from `s` by a symbol. -/
def edge (P : Past T N) (s : ℕ) (x : Letter T N) (s' : ℕ) : Bool :=
  s' != 0 && (P.top s').isPrefixOf (x :: P.top s)

/-- A reduction in `s`. -/
def reduction (G : Grammar τ T N V) (P : Past T N) (s k : ℕ) : Bool :=
  (G.prods[k]?).all fun p => p.rhs.reverse.isPrefixOf (P.top s)

/-- A move for a token. -/
def onToken (G : Grammar τ T N V) (P : Past T N) (s : ℕ) (t : T) : Move → Bool
  | .shift s' => P.edge s (.terminal t) s'
  | .reduce k => reduction G P s k
  | .accept => false
  | .fail => true

/-- A move for any token. -/
def onAny (G : Grammar τ T N V) (P : Past T N) (s : ℕ) : Move → Bool
  | .reduce k => reduction G P s k
  | .fail => true
  | _ => false

/-- A move at the end. -/
def onEnd (G : Grammar τ T N V) (rows : List (Row T N)) (P : Past T N) (s : ℕ) : Move → Bool
  | .accept => P.top s == [.nonterminal G.start] &&
    rows.zipIdx.all fun r => r.2 == 0 || r.1.gotos.all fun g => g.2 != s
  | m => onAny G P s m

/-- The check of a row. -/
def checkRow (G : Grammar τ T N V) (rows : List (Row T N)) (P : Past T N) (r : Row T N) (s : ℕ) :
    Bool :=
  r.moves.all (fun m => onToken G P s m.1 m.2) &&
    r.gotos.all (fun g => P.edge s (.nonterminal g.1) g.2) &&
      r.ending.all (onEnd G rows P s) && onAny G P s r.other

/-- The check of all rows. -/
def check (G : Grammar τ T N V) (rows : List (Row T N)) (P : Past T N) : Bool :=
  P.top 0 == [] && rows.zipIdx.all fun r => checkRow G rows P r.1 r.2

theorem prefix_of_edge {x : Letter T N} (h : P.edge s x s') :
    s' ≠ 0 ∧ P.top s' <+: x :: P.top s := by
  rw [edge, Bool.and_eq_true, bne_iff_ne, List.isPrefixOf_iff_prefix] at h
  exact h

theorem prefix_of_reduction (h : reduction G P s k) {p : Production T N V}
    (hp : G.prods[k]? = some p) :
    p.rhs.reverse <+: P.top s := by
  rw [reduction, hp, Option.all_some, List.isPrefixOf_iff_prefix] at h
  exact h

/-- **A table that passes the check is sound.** -/
def sound (h : check G rows P) : Sound G (ofRows rows) :=
  have hall : P.top 0 = [] ∧
      ∀ (s : ℕ) (r : Row T N), rows[s]? = some r → checkRow G rows P r s := by
    rw [check, Bool.and_eq_true, beq_iff_eq, List.all_eq_true] at h
    exact ⟨h.1, fun s r hr => h.2 (r, s) (List.mk_mem_zipIdx_iff_getElem?.mpr hr)⟩
  have hrow : ∀ {s : ℕ} {r : Row T N}, rows[s]? = some r →
      (∀ m ∈ r.moves, onToken G P s m.1 m.2) ∧ (∀ g ∈ r.gotos, P.edge s (.nonterminal g.1) g.2) ∧
        (∀ m, r.ending = some m → onEnd G rows P s m) ∧ onAny G P s r.other := by
    intro s r hr
    have hcheck := hall.2 s r hr
    simp only [checkRow, Bool.and_eq_true, List.all_eq_true] at hcheck
    obtain ⟨⟨⟨hmoves, hgotos⟩, hending⟩, hother⟩ := hcheck
    refine ⟨hmoves, hgotos, fun m hm => ?_, hother⟩
    rwa [hm, Option.all_some] at hending
  { past := P.top
    start := hall.1
    shift := by
      intro s t s' hmove
      obtain ⟨r, hr, ⟨t', ht, hm⟩ | ⟨ht, -⟩ | hm⟩ := move_cases hmove (by simp)
      · cases ht
        exact prefix_of_edge ((hrow hr).1 _ hm)
      · cases ht
      · have hother := (hrow hr).2.2.2
        rw [hm] at hother
        cases hother
    goto := by
      intro s n s' hgoto
      obtain ⟨r, hr, hg⟩ := goto_cases hgoto
      exact prefix_of_edge ((hrow hr).2.1 _ hg)
    reduce := by
      intro s k a p hmove hp
      obtain ⟨r, hr, ⟨t', -, hm⟩ | ⟨-, hm⟩ | hm⟩ := move_cases hmove (by simp)
      · exact prefix_of_reduction ((hrow hr).1 _ hm) hp
      · exact prefix_of_reduction ((hrow hr).2.2.1 _ hm) hp
      · have hother := (hrow hr).2.2.2
        rw [hm] at hother
        exact prefix_of_reduction hother hp
    accept := by
      intro s a hmove
      obtain ⟨r, hr, ⟨t', -, hm⟩ | ⟨rfl, hm⟩ | hm⟩ := move_cases hmove (by simp)
      · cases (hrow hr).1 _ hm
      · have hend := (hrow hr).2.2.1 _ hm
        rw [onEnd, Bool.and_eq_true, beq_iff_eq, List.all_eq_true] at hend
        refine ⟨rfl, hend.1, fun s' n hgoto => ?_⟩
        obtain ⟨r', hr', hg⟩ := goto_cases hgoto
        have hfrom := hend.2 (r', s') (List.mk_mem_zipIdx_iff_getElem?.mpr hr')
        rw [Bool.or_eq_true, beq_iff_eq, List.all_eq_true] at hfrom
        exact hfrom.resolve_right fun hne => absurd rfl (bne_iff_ne.mp (hne _ hg))
      · have hother := (hrow hr).2.2.2
        rw [hm] at hother
        cases hother }

end Past

/-! ## Completeness

Item by item: each is moved on by every symbol that it may meet. -/

/-- Positions for each state, and the tokens that may follow a nonterminal, wherever it stands. -/
structure Slr (T N : Type*) where
  items : List (List (ℕ × ℕ))
  nullable : List N
  first : N → List T
  follow : N → List (Option T)

namespace Slr

variable {C : Slr T N} {Xs : List (Letter T N)}

/-- The positions of the state `s`. -/
def positions (C : Slr T N) (s : ℕ) : List (ℕ × ℕ) := (C.items[s]?).getD []

/-- The symbols on top of the stack in each state are those before its positions. -/
def past (G : Grammar τ T N V) (C : Slr T N) : Past T N :=
  C.items.map fun l => l.foldl (fun Xs x =>
    let Ys := (G.prods[x.1]?).elim [] fun p => (p.rhs.take x.2).reverse
    if Xs.length < Ys.length then Ys else Xs) []

/-- What the symbols may begin with, if one of `as` follows. -/
def begins (C : Slr T N) : List (Letter T N) → List (Option T) → List (Option T)
  | [], as => as
  | .terminal t :: _, _ => [some t]
  | .nonterminal n :: Xs, as =>
    (C.first n).map some ++ if n ∈ C.nullable then C.begins Xs as else []

/-- What may follow the nonterminals of a right side. -/
def follows (C : Slr T N) (n : N) : List (Letter T N) → Bool
  | [] => true
  | .terminal _ :: Xs => C.follows n Xs
  | .nonterminal n' :: Xs =>
    (C.begins Xs (C.follow n)).all (fun a => decide (a ∈ C.follow n')) && C.follows n Xs

/-- The check of a production. -/
def checkProduction (C : Slr T N) (p : Production T N V) : Bool :=
  (C.begins p.rhs [none]).all (fun a =>
    a.elim (decide (p.lhs ∈ C.nullable)) fun t => decide (t ∈ C.first p.lhs)) &&
      C.follows p.lhs p.rhs

/-- Going on by a symbol, or the reduction if there is none. -/
def checkNext (G : Grammar τ T N V) (rows : List (Row T N)) (C : Slr T N) (s k i : ℕ)
    (p : Production T N V) : Option (Letter T N) → Bool
  | none => (C.follow p.lhs).all fun a => (ofRows rows).move s a == .reduce k
  | some (.terminal t) =>
    match (ofRows rows).move s (some t) with
    | .shift s' => decide ((k, i + 1) ∈ C.positions s')
    | _ => false
  | some (.nonterminal n) =>
    ((ofRows rows).goto s n).any (fun s' => decide ((k, i + 1) ∈ C.positions s')) &&
      G.prods.zipIdx.all fun q => q.1.lhs != n || decide ((q.2, 0) ∈ C.positions s)

/-- The check of a position. -/
def checkItem (G : Grammar τ T N V) (rows : List (Row T N)) (C : Slr T N) (s : ℕ)
    (x : ℕ × ℕ) : Bool :=
  (G.prods[x.1]?).all fun p => C.checkNext G rows s x.1 x.2 p p.rhs[x.2]?

/-- The check of all productions and positions. -/
def check (G : Grammar τ T N V) (rows : List (Row T N)) (C : Slr T N) : Bool :=
  G.prods.all C.checkProduction && decide (none ∈ C.follow G.start) &&
    (G.prods.zipIdx.all fun p => p.1.lhs != G.start || decide ((p.2, 0) ∈ C.positions 0)) &&
      (C.items.zipIdx.all fun l => l.1.all (C.checkItem G rows l.2)) &&
        ((ofRows rows).goto 0 G.start).any fun s => (ofRows rows).move s none == .accept

/-- The sets of the certificate. -/
def firsts (G : Grammar τ T N V) (C : Slr T N) : G.Firsts where
  nullable n := n ∈ C.nullable
  first n t := t ∈ C.first n

omit [DecidableEq T] in
theorem mem_begins {b : Option T} {as : List (Option T)} (ha : a ∈ as)
    (h : (firsts G C).Begins Xs a b) : b ∈ C.begins Xs as := by
  induction Xs with
  | nil =>
    obtain rfl : b = a := h
    exact ha
  | cons X Xs ih =>
    cases X with
    | terminal t =>
      obtain rfl : b = some t := h
      exact List.mem_singleton_self _
    | nonterminal n =>
      rw [begins, List.mem_append]
      obtain ⟨t, rfl, ht⟩ | ⟨hn, h⟩ := h
      · exact .inl (List.mem_map_of_mem ht)
      · right
        rw [if_pos (show n ∈ C.nullable from hn)]
        exact ih h

theorem mem_follow {n n' : N} {i : ℕ} {b : Option T} (h : C.follows n Xs)
    (hi : Xs[i]? = some (.nonterminal n')) (ha : a ∈ C.follow n)
    (hb : (firsts G C).Begins (Xs.drop (i + 1)) a b) : b ∈ C.follow n' := by
  induction Xs generalizing i with
  | nil => cases hi
  | cons X Xs ih =>
    cases X with
    | terminal t =>
      cases i with
      | zero => cases hi
      | succ i => exact ih h hi hb
    | nonterminal m =>
      rw [follows, Bool.and_eq_true, List.all_eq_true] at h
      cases i with
      | zero =>
        cases hi
        exact of_decide_eq_true (h.1 b (mem_begins ha hb))
      | succ i => exact ih h.2 hi hb

theorem closed (h : ∀ p ∈ G.prods, C.checkProduction p) : (firsts G C).Closed where
  nullable := by
    intro k p hp hbegins
    have hall := h p (List.mem_of_getElem? hp)
    rw [checkProduction, Bool.and_eq_true, List.all_eq_true] at hall
    have hnull : p.lhs ∈ C.nullable :=
      of_decide_eq_true (hall.1 none (mem_begins (List.mem_singleton_self _) hbegins))
    exact hnull
  first := by
    intro k p t hp hbegins
    have hall := h p (List.mem_of_getElem? hp)
    rw [checkProduction, Bool.and_eq_true, List.all_eq_true] at hall
    have hfirst : t ∈ C.first p.lhs :=
      of_decide_eq_true (hall.1 (some t) (mem_begins (List.mem_singleton_self _) hbegins))
    exact hfirst

/-- **A table that passes the check is complete.** -/
def complete (h : check G rows C) : Complete G (ofRows rows) :=
  have hall : (∀ p ∈ G.prods, C.checkProduction p) ∧ none ∈ C.follow G.start ∧
      (∀ (k : ℕ) (p : Production T N V), G.prods[k]? = some p → p.lhs = G.start →
        (k, 0) ∈ C.positions 0) ∧
      (∀ (s k i : ℕ) (p : Production T N V), (k, i) ∈ C.positions s → G.prods[k]? = some p →
        C.checkNext G rows s k i p p.rhs[i]?) ∧
      ∃ s, (ofRows rows).goto 0 G.start = some s ∧ (ofRows rows).move s none = .accept := by
    simp only [check, Bool.and_eq_true, List.all_eq_true, decide_eq_true_eq] at h
    obtain ⟨⟨⟨⟨hprods, hstart⟩, hbegins⟩, hitems⟩, haccept⟩ := h
    refine ⟨hprods, hstart, fun k p hp hlhs => ?_, fun s k i p hpos hp => ?_, ?_⟩
    · have hor := hbegins (p, k) (List.mk_mem_zipIdx_iff_getElem?.mpr hp)
      rw [Bool.or_eq_true, bne_iff_ne, decide_eq_true_eq] at hor
      exact hor.resolve_left fun hne => hne hlhs
    · cases hl : C.items[s]? with
      | none =>
        rw [positions, hl] at hpos
        cases hpos
      | some l =>
        rw [positions, hl] at hpos
        have hitem := hitems (l, s) (List.mk_mem_zipIdx_iff_getElem?.mpr hl) (k, i) hpos
        rw [checkItem, hp, Option.all_some] at hitem
        exact hitem
    · obtain ⟨s, hs, hmove⟩ := (Option.any_eq_true _ _).mp haccept
      exact ⟨s, hs, eq_of_beq hmove⟩
  { firsts := firsts G C
    closed := closed hall.1
    item := fun s k i a => (k, i) ∈ C.positions s ∧
      ∃ p : Production T N V, G.prods[k]? = some p ∧ a ∈ C.follow p.lhs
    begins := by
      intro k p hp hlhs
      exact ⟨hall.2.2.1 k p hp hlhs, p, hp, hlhs ▸ hall.2.1⟩
    shift := by
      intro s k i a p t hitem hp hget
      have hnext := hall.2.2.2.1 s k i p hitem.1 hp
      rw [hget, checkNext] at hnext
      split at hnext
      · rename_i s' hmove
        exact ⟨s', hmove, of_decide_eq_true hnext, hitem.2⟩
      · cases hnext
    goto := by
      intro s k i a p n hitem hp hget
      have hnext := hall.2.2.2.1 s k i p hitem.1 hp
      rw [hget, checkNext, Bool.and_eq_true, Option.any_eq_true] at hnext
      obtain ⟨⟨s', hgoto, hpos⟩, -⟩ := hnext
      exact ⟨s', hgoto, of_decide_eq_true hpos, hitem.2⟩
    close := by
      intro s k i j a b p q hitem hp hget hq hbegins
      have hnext := hall.2.2.2.1 s k i p hitem.1 hp
      rw [hget, checkNext, Bool.and_eq_true, List.all_eq_true] at hnext
      have hor := hnext.2 (q, j) (List.mk_mem_zipIdx_iff_getElem?.mpr hq)
      rw [Bool.or_eq_true, bne_iff_ne, decide_eq_true_eq] at hor
      have hprod := hall.1 p (List.mem_of_getElem? hp)
      rw [checkProduction, Bool.and_eq_true] at hprod
      obtain ⟨-, p', hp', ha⟩ := hitem
      obtain rfl : p = p' := Option.some.inj (hp.symm.trans hp')
      exact ⟨hor.resolve_left fun hne => hne rfl, q, hq, mem_follow hprod.2 hget ha hbegins⟩
    reduce := by
      intro s k a p hp hitem
      have hnext := hall.2.2.2.1 s k _ p hitem.1 hp
      rw [List.getElem?_eq_none (Nat.le_refl _), checkNext, List.all_eq_true] at hnext
      obtain ⟨-, p', hp', ha⟩ := hitem
      obtain rfl : p = p' := Option.some.inj (hp.symm.trans hp')
      exact eq_of_beq (hnext a ha)
    accept := hall.2.2.2.2 }

/-! ### The way back -/

/-- A step over a symbol comes from the positions before it. -/
def back (C : Slr T N) (s s' : ℕ) : Bool :=
  (C.positions s').all fun x => x.2 == 0 || decide ((x.1, x.2 - 1) ∈ C.positions s)

/-- A move in `s`. -/
def backMove (G : Grammar τ T N V) (C : Slr T N) (s : ℕ) : Move → Bool
  | .shift s' => C.back s s'
  | .reduce k => (G.prods[k]?).any fun p => decide ((k, p.rhs.length) ∈ C.positions s)
  | _ => true

/-- A move in `s` that does not shift. -/
def backOther (G : Grammar τ T N V) (C : Slr T N) (s : ℕ) : Move → Bool
  | .shift _ => false
  | m => C.backMove G s m

/-- The moves of a row. -/
def moves (r : Row T N) : List Move := r.other :: (r.ending.toList ++ r.moves.map Prod.snd)

/-- The check of a row. -/
def backRow (G : Grammar τ T N V) (C : Slr T N) (s : ℕ) (r : Row T N) : Bool :=
  r.moves.all (fun m => C.backMove G s m.2) && r.gotos.all (fun g => C.back s g.2) &&
    r.ending.all (C.backOther G s) && C.backOther G s r.other

/-- A production that may begin in `s` is never reduced, or has a state to go on with. -/
def backNext (G : Grammar τ T N V) (rows : List (Row T N)) (s : ℕ) (x : ℕ × ℕ) : Bool :=
  x.2 != 0 || (G.prods[x.1]?).all (fun p => ((ofRows rows).goto s p.lhs).isSome) ||
    rows.all fun r => (moves r).all fun m => m != .reduce x.1

/-- The check of all rows and positions. -/
def checkBack (G : Grammar τ T N V) (rows : List (Row T N)) (C : Slr T N) : Bool :=
  (C.positions 0).all (fun x => x.2 == 0) && (rows.zipIdx.all fun r => C.backRow G r.2 r.1) &&
    C.items.zipIdx.all fun l => l.1.all (backNext G rows l.2)

omit [DecidableEq T] [DecidableEq N] in
theorem mem_of_back {i : ℕ} (h : C.back s s') (hi : (k, i + 1) ∈ C.positions s') :
    (k, i) ∈ C.positions s := by
  have hall := List.all_eq_true.mp h _ hi
  rw [Bool.or_eq_true, beq_iff_eq, decide_eq_true_eq] at hall
  exact hall.resolve_left (Nat.succ_ne_zero i)

theorem mem_moves (h : (ofRows rows).move s a = m) (hm : m ≠ .fail) :
    ∃ r, rows[s]? = some r ∧ m ∈ moves r := by
  obtain ⟨r, hr, ⟨t, -, hmem⟩ | ⟨-, hending⟩ | hother⟩ := move_cases h hm
  · exact ⟨r, hr, List.mem_cons_of_mem _ (List.mem_append_right _ (List.mem_map_of_mem hmem))⟩
  · refine ⟨r, hr, List.mem_cons_of_mem _ (List.mem_append_left _ ?_)⟩
    rw [Option.mem_toList, hending]
  · exact ⟨r, hr, hother ▸ List.mem_cons_self⟩

/-- **A table that passes the check stops at tokens only.** -/
def viable (h : checkBack G rows C) : Viable G (ofRows rows) :=
  have hall : (∀ x ∈ C.positions 0, x.2 = 0) ∧
      (∀ (s : ℕ) (r : Row T N), rows[s]? = some r → C.backRow G s r) ∧
        ∀ (s k i : ℕ), (k, i) ∈ C.positions s → backNext G rows s (k, i) := by
    simp only [checkBack, Bool.and_eq_true, List.all_eq_true, beq_iff_eq] at h
    obtain ⟨⟨hstart, hrows⟩, hitems⟩ := h
    refine ⟨hstart, fun s r hr => hrows (r, s) (List.mk_mem_zipIdx_iff_getElem?.mpr hr), ?_⟩
    intro s k i hpos
    cases hl : C.items[s]? with
    | none =>
      rw [positions, hl] at hpos
      cases hpos
    | some l =>
      rw [positions, hl] at hpos
      exact hitems (l, s) (List.mk_mem_zipIdx_iff_getElem?.mpr hl) (k, i) hpos
  have hrow : ∀ {s : ℕ} {r : Row T N}, rows[s]? = some r →
      (∀ m ∈ r.moves, C.backMove G s m.2) ∧ (∀ g ∈ r.gotos, C.back s g.2) ∧
        (∀ m, r.ending = some m → C.backOther G s m) ∧ C.backOther G s r.other := by
    intro s r hr
    have hcheck := hall.2.1 s r hr
    simp only [backRow, Bool.and_eq_true, List.all_eq_true] at hcheck
    obtain ⟨⟨⟨hmoves, hgotos⟩, hending⟩, hother⟩ := hcheck
    refine ⟨hmoves, hgotos, fun m hm => ?_, hother⟩
    rwa [hm, Option.all_some] at hending
  have hmoves : ∀ {s : ℕ} {a : Option T} {m : Move}, (ofRows rows).move s a = m → m ≠ .fail →
      C.backMove G s m ∧ (a = none → C.backOther G s m) := by
    intro s a m hmove hm
    have hback : ∀ {m : Move}, C.backOther G s m → C.backMove G s m := by
      intro m hother
      cases m with
      | shift s' => cases hother
      | _ => exact hother
    obtain ⟨r, hr, ⟨t, rfl, hmem⟩ | ⟨-, hending⟩ | hother⟩ := move_cases hmove hm
    · exact ⟨(hrow hr).1 _ hmem, fun hnone => by cases hnone⟩
    · exact ⟨hback ((hrow hr).2.2.1 _ hending), fun _ => (hrow hr).2.2.1 _ hending⟩
    · rw [← hother]
      exact ⟨hback (hrow hr).2.2.2, fun _ => (hrow hr).2.2.2⟩
  { item := fun s k i => (k, i) ∈ C.positions s
    start := fun k i hi => hall.1 (k, i) hi
    shift := fun s t s' k i hmove hi => mem_of_back (hmoves hmove (by simp)).1 hi
    goto := by
      intro s n s' k i hgoto hi
      obtain ⟨r, hr, hg⟩ := goto_cases hgoto
      exact mem_of_back ((hrow hr).2.1 _ hg) hi
    reduce := by
      intro s k a hmove
      obtain ⟨p, hp, hpos⟩ := (Option.any_eq_true _ _).mp (hmoves hmove (by simp)).1
      exact ⟨p, hp, of_decide_eq_true hpos⟩
    next := by
      intro s s' k a p hpos hmove hp
      have hnext := hall.2.2 s k 0 hpos
      rw [backNext, Bool.or_eq_true, Bool.or_eq_true, hp, Option.all_some] at hnext
      rcases hnext with (hne | hgoto) | hnever
      · exact absurd rfl (bne_iff_ne.mp hne)
      · exact hgoto
      · obtain ⟨r, hr, hm⟩ := mem_moves hmove (by simp)
        have hne :=
          List.all_eq_true.mp (List.all_eq_true.mp hnever r (List.mem_of_getElem? hr)) _ hm
        exact absurd rfl (bne_iff_ne.mp hne)
    ending := by
      intro s s' hmove
      have hother := (hmoves hmove (by simp)).2 rfl
      cases hother }

end Slr

/-! ## Termination

A rank of the states that each reduction without a token lowers. -/

/-- The ranks of the states, and the worth of a token. -/
structure Ranks where
  ranks : List ℕ
  cost : ℕ

namespace Ranks

variable {R : Ranks}

/-- The rank of `s`. -/
def rank (R : Ranks) (s : ℕ) : ℕ := R.ranks.getD s 0

/-- A reduction in `s`. -/
def reduction (G : Grammar τ T N V) (rows : List (Row T N)) (R : Ranks) (s k : ℕ) : Bool :=
  (G.prods[k]?).all fun p =>
    if p.rhs.isEmpty then ((ofRows rows).goto s p.lhs).all fun s' => R.rank s' + 1 < R.rank s
    else rows.all fun r => r.gotos.all fun g =>
      g.1 != p.lhs || decide (R.rank g.2 + 1 < R.rank s + p.rhs.length)

/-- A move in `s`. -/
def onMove (G : Grammar τ T N V) (rows : List (Row T N)) (R : Ranks) (s : ℕ) : Move → Bool
  | .shift s' => R.rank s' + 1 < R.rank s + R.cost
  | .reduce k => reduction G rows R s k
  | _ => true

/-- The check of all rows. -/
def check (G : Grammar τ T N V) (rows : List (Row T N)) (R : Ranks) : Bool :=
  rows.zipIdx.all fun r => r.1.moves.all (fun m => onMove G rows R r.2 m.2) &&
    r.1.ending.all (onMove G rows R r.2) && onMove G rows R r.2 r.1.other

theorem onMove_of_check (h : check G rows R) (hmove : (ofRows rows).move s a = m) (hm : m ≠ .fail) :
    onMove G rows R s m := by
  obtain ⟨r, hr, hcases⟩ := move_cases hmove hm
  have hrow := List.all_eq_true.mp h (r, s) (List.mk_mem_zipIdx_iff_getElem?.mpr hr)
  rw [Bool.and_eq_true, Bool.and_eq_true, List.all_eq_true] at hrow
  obtain ⟨t, -, hmem⟩ | ⟨-, hending⟩ | hother := hcases
  · exact hrow.1.1 _ hmem
  · have hall := hrow.1.2
    rwa [hending, Option.all_some] at hall
  · rw [← hother]
    exact hrow.2

/-- **A table that passes the check ends.** -/
def ranking (h : check G rows R) : Ranking G (ofRows rows) where
  rank := R.rank
  cost := R.cost
  shift := by
    intro s t s' hmove
    exact of_decide_eq_true (onMove_of_check h hmove (by simp))
  reduce := by
    intro s k a p s₀ s' hmove hp hgoto hempty
    have hred : reduction G rows R s k := onMove_of_check h hmove (by simp)
    rw [reduction, hp, Option.all_some] at hred
    split at hred
    · next hrhs =>
      rw [List.isEmpty_iff] at hrhs
      obtain rfl := hempty hrhs
      rw [hgoto, Option.all_some, decide_eq_true_eq] at hred
      rw [hrhs]
      exact hred
    · obtain ⟨r, hr, hg⟩ := goto_cases hgoto
      have hall := List.all_eq_true.mp (List.all_eq_true.mp hred r (List.mem_of_getElem? hr)) _ hg
      rw [Bool.or_eq_true, bne_iff_ne, decide_eq_true_eq] at hall
      exact hall.resolve_left fun hne => hne rfl

end Ranks

end Table

end SchemeOs.Parsing
