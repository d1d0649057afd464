import SchemeOs.Interpreter.ArgumentVectors

/-!
# Interpreter/AppendLoop — the list that `append` builds

`append` walks its arguments with a pointer that starts at the first list and is then set to
`*argv++`, so the first list comes twice and the last argument not at all.  A list that ends is
followed by the next one without a look at it: it is copied as if it were a pair.  Meanwhile the new
pairs are a list of their own, and nothing that is older changes.
-/

namespace SchemeOs

open Traced Builtins

/-! ## Spines -/

namespace Heap

variable {H : Heap} {p q r : Ptr} {xs ys : List Ptr}

theorem Spine.append (h : H.Spine p xs q) (h' : H.Spine q ys r) : H.Spine p (xs ++ ys) r := by
  induction xs generalizing p with
  | nil => exact (h : p = q) ▸ h'
  | cons x xs ih =>
    obtain ⟨htype, hcar, s, hcdr, hs⟩ := h
    exact ⟨htype, hcar, s, hcdr, ih hs⟩

/-- The first pair of a spine. -/
theorem Spine.pair {x : Ptr} (h : H.Spine p (x :: xs) q) :
    ∃ r, H.obj? p = some ⟨.pair, .pair x (some r)⟩ ∧ H.Spine r xs q := by
  obtain ⟨htype, hcar, r, hcdr, hr⟩ := h
  obtain ⟨t, u, ho⟩ := obj?_of_car? hcar
  rw [type?_of_obj? ho] at htype
  obtain rfl : t = .pair := Option.some.inj htype
  rw [cdr?_of_obj? ho] at hcdr
  exact ⟨r, hcdr ▸ ho, hr⟩

/-- Of two spines from one place, one is the first part of the other. -/
theorem Spine.compare (h : H.Spine p xs q) (h' : H.Spine p ys r) :
    (∃ u, ys = xs ++ u ∧ H.Spine q u r) ∨ ∃ x u, xs = ys ++ x :: u ∧ H.Spine r (x :: u) q := by
  induction xs generalizing p ys with
  | nil => exact .inl ⟨ys, rfl, (h : p = q) ▸ h'⟩
  | cons x xs ih =>
    cases ys with
    | nil => exact .inr ⟨x, xs, rfl, (h' : p = r) ▸ h⟩
    | cons y ys =>
      obtain ⟨-, hcar, s, hcdr, hs⟩ := h
      obtain ⟨-, hcar', s', hcdr', hs'⟩ := h'
      obtain rfl : x = y := Option.some.inj (hcar.symm.trans hcar')
      obtain rfl : s = s' := Option.some.inj (hcdr.symm.trans hcdr')
      rcases ih hs hs' with ⟨u, rfl, hu⟩ | ⟨z, u, rfl, hu⟩
      · exact .inl ⟨u, rfl, hu⟩
      · exact .inr ⟨z, u, rfl, hu⟩

/-- A spine has one end. -/
theorem Spine.unique (h : H.Spine p xs q) (h' : H.Spine p xs r) : q = r := by
  rcases h.compare h' with ⟨u, heq, hu⟩ | ⟨x, u, heq, -⟩
  · obtain rfl := List.self_eq_append_right.mp heq
    exact hu
  · simp at heq

theorem Spine.of_append (h : H.Spine p (xs ++ ys) r) :
    ∃ q, H.Spine p xs q ∧ H.Spine q ys r := by
  induction xs generalizing p with
  | nil => exact ⟨p, rfl, h⟩
  | cons x xs ih =>
    obtain ⟨htype, hcar, s, hcdr, hs⟩ := h
    obtain ⟨q, hq, hr⟩ := ih hs
    exact ⟨q, ⟨htype, hcar, s, hcdr, hq⟩, hr⟩

theorem Sub.insert_of_none {H' : Heap} {o : Obj} (h : H.Sub H') (hp : H.obj? p = Option.none) :
    H.Sub (H'.insert p o) := by
  intro r o' hr
  rw [obj?_insert_of_ne, h r o' hr]
  rintro rfl
  rw [hp] at hr
  cases hr

end Heap

variable {m m₀ m₁ : Memory} {argv : ℕ → Ptr} {l q s p r a x : Ptr} {c : Option Ptr}
  {xs us : List Ptr} {n k argc : ℕ} {t : SchemeType} {o : Obj}

namespace Append

/-! ## The copy so far

The memory as the first list leaves it stays below the copy: the loop pushes pairs and writes into
the last one that it has pushed. -/

/-- The objects that are new since the memory `m₀`. -/
def since (m₀ m : Memory) : Heap := fun i => if m₀.objs.length ≤ i then m.heap i else none

theorem obj?_since (h : m₀.heap.obj? p = none) : (since m₀ m).obj? p = m.heap.obj? p := by
  cases p with
  | char c => rfl
  | obj i => exact if_pos (List.getElem?_eq_none_iff.mp h)

theorem of_obj?_since (h : (since m₀ m).obj? p = some o) :
    m₀.heap.obj? p = none ∧ m.heap.obj? p = some o := by
  cases p with
  | char c => cases h
  | obj i =>
    by_cases hi : m₀.objs.length ≤ i
    · have hnone : m₀.heap.obj? (.obj i) = none := List.getElem?_eq_none_iff.mpr hi
      exact ⟨hnone, by rw [← obj?_since hnone]; exact h⟩
    · rw [Heap.obj?, since, if_neg hi] at h
      cases h

/-- The list `l` with the last pair `q` is new, and the other objects are as they were. -/
structure Kept (m₀ m : Memory) (l q : Ptr) : Prop where
  sub : m₀.heap.Sub m.heap
  pair : l ≠ schemeNull → ∃ t a c, m.heap.obj? q = some ⟨t, .pair a c⟩
  newList : l ≠ schemeNull → m₀.heap.obj? l = none
  newPair : l ≠ schemeNull → m₀.heap.obj? q = none

/-- Moreover the list holds `xs`, whatever comes after its last pair. -/
structure Copied (m₀ m : Memory) (l q : Ptr) (xs : List Ptr) : Prop extends Kept m₀ m l q where
  empty : l = schemeNull → xs = []
  spine : l ≠ schemeNull → ∃ a c, m.heap.obj? q = some ⟨.pair, .pair a c⟩ ∧
    ∀ p, ((since m₀ m).insert q ⟨.pair, .pair a (some p)⟩).Spine l xs p

theorem Copied.init (m : Memory) (q : Ptr) : Copied m m schemeNull q [] where
  sub := .refl
  pair h := absurd rfl h
  newList h := absurd rfl h
  newPair h := absurd rfl h
  empty _ := rfl
  spine h := absurd rfl h

/-- The memory after `link`. -/
def linked (m : Memory) (l q a p : Ptr) : Memory :=
  if l = schemeNull then m else m.modify q fun o => { o with u := .pair a (some p) }

theorem run_link (h : l ≠ schemeNull → m.heap.obj? q = some ⟨t, .pair a c⟩) :
    (link l q p).run m = some (if l = schemeNull then p else l, linked m l q a p) := by
  unfold link linked
  by_cases hl : l = schemeNull
  · rw [if_pos hl, if_pos hl, if_pos hl]
    rfl
  · rw [if_neg hl, if_neg hl, if_neg hl,
      run_bind_of_run (run_schemeSetCdr (Heap.car?_of_obj? (h hl)))]
    rfl

theorem obj?_linked_of_ne (h : l ≠ schemeNull → r ≠ q) :
    (linked m l q a p).heap.obj? r = m.heap.obj? r := by
  unfold linked
  split_ifs with hl
  · rfl
  · exact Memory.obj?_modify_of_ne (h hl)

theorem obj?_linked_self (hl : l ≠ schemeNull) (h : m.heap.obj? q = some ⟨t, .pair a c⟩) :
    (linked m l q a p).heap.obj? q = some ⟨t, .pair a (some p)⟩ := by
  rw [linked, if_neg hl]
  exact Memory.obj?_modify_self h

theorem Kept.ne_of_obj? (h : Kept m₀ m l q) (hr : m₀.heap.obj? r = some o) (hl : l ≠ schemeNull) :
    r ≠ q := by
  rintro rfl
  rw [h.newPair hl] at hr
  cases hr

theorem Kept.sub_linked (h : Kept m₀ m l q) : m₀.heap.Sub (linked m l q a p).heap := by
  intro r o hr
  rw [obj?_linked_of_ne fun hl => h.ne_of_obj? hr hl]
  exact h.sub r o hr

/-- What is new, with the last pair linked. -/
theorem Kept.insert_sub (h : Kept m₀ m l q) (hl : l ≠ schemeNull)
    (hq : m.heap.obj? q = some ⟨.pair, .pair a c⟩) (hsub : m.heap.Sub m₁.heap) :
    ((since m₀ m).insert q ⟨.pair, .pair a (some p)⟩).Sub (since m₀ (linked m₁ l q a p)) := by
  intro r o hr
  by_cases hrq : r = q
  · subst hrq
    rw [Heap.obj?_insert_self (by rw [obj?_since (h.newPair hl)]; exact hq)] at hr
    rw [obj?_since (h.newPair hl), obj?_linked_self hl (hsub r _ hq)]
    exact hr
  · rw [Heap.obj?_insert_of_ne hrq] at hr
    obtain ⟨hnone, hobj⟩ := of_obj?_since hr
    rw [obj?_since hnone, obj?_linked_of_ne fun _ => hrq]
    exact hsub r _ hobj

theorem since_sub : (since m₀ m).Sub m.heap := fun _ _ h => (of_obj?_since h).2

theorem Kept.run_link (h : Kept m₀ m l q) (p : Ptr) :
    ∃ m₁, (link l q p).run m = some (if l = schemeNull then p else l, m₁) := by
  by_cases hl : l = schemeNull
  · subst hl
    exact ⟨m, rfl⟩
  · obtain ⟨t, a, c, hq⟩ := h.pair hl
    exact ⟨_, Append.run_link fun _ => hq⟩

/-- The last argument that is taken becomes the tail. -/
theorem Copied.run_tail (h : Copied m₀ m l q xs) (p : Ptr) :
    ∃ m₁, (link l q p).run m = some (if l = schemeNull then p else l, m₁) ∧
      (since m₀ m₁).Spine (if l = schemeNull then p else l) xs p ∧ m₀.heap.Sub m₁.heap := by
  by_cases hl : l = schemeNull
  · subst hl
    obtain rfl := h.empty rfl
    exact ⟨m, rfl, rfl, h.sub⟩
  · obtain ⟨a, c, hq, hspine⟩ := h.spine hl
    refine ⟨_, run_link fun _ => hq, ?_, h.sub_linked⟩
    rw [if_neg hl]
    exact (hspine p).sub (h.insert_sub hl hq .refl)

/-- The object at `s` is copied to the end of the list. -/
theorem run_copyCell (h : l ≠ schemeNull → m.heap.obj? q = some ⟨t, .pair a c⟩)
    (hs : m.heap.obj? s = some o) (hr : m.heap.cdr? s = some r) :
    (copyCell l q s).run m = some ((if l = schemeNull then m.fresh else l, m.fresh, r),
      linked (m.push o) l q a m.fresh) := by
  have hpush : (m.push o).heap.cdr? s = some r := Memory.heap_push.cdr? hr
  have hobj : (schemeObj s).run m = some (o, m) := run_readMem hs
  have hq : l ≠ schemeNull → (m.push o).heap.obj? q = some ⟨t, .pair a c⟩ := fun hl =>
    Memory.heap_push q _ (h hl)
  unfold copyCell
  rw [run_bind_of_run hobj, run_bind_of_run run_schemeAllocObj,
    run_bind_of_run (run_schemeCdr hpush), run_bind_of_run (run_link hq)]
  rfl

theorem Kept.fresh (h : Kept m₀ m l q) : m₀.heap.obj? m.fresh = none := h.sub.none Memory.obj?_fresh

/-- The memory in which one more object was copied and linked. -/
theorem Kept.linked_push (h : Kept m₀ m l q) :
    (linked (m.push ⟨t, .pair x c⟩) l q a m.fresh).heap.obj? m.fresh = some ⟨t, .pair x c⟩ ∧
      Kept m₀ (linked (m.push ⟨t, .pair x c⟩) l q a m.fresh)
        (if l = schemeNull then m.fresh else l) m.fresh := by
  have hfresh : (linked (m.push ⟨t, .pair x c⟩) l q a m.fresh).heap.obj? m.fresh =
      some ⟨t, .pair x c⟩ := by
    rw [obj?_linked_of_ne, Memory.obj?_push_fresh]
    rintro hl heq
    obtain ⟨_, _, _, hobj⟩ := h.pair hl
    exact Memory.ne_fresh hobj heq.symm
  refine ⟨hfresh, ?_, fun _ => ⟨_, _, _, hfresh⟩, fun _ => ?_, fun _ => h.fresh⟩
  · intro r o hr
    rw [obj?_linked_of_ne fun hl => h.ne_of_obj? hr hl]
    exact Memory.heap_push r o (h.sub r o hr)
  · split_ifs with hl
    · exact h.fresh
    · exact h.newList hl

/-- The list after a copy is not empty. -/
theorem Kept.ne_null (h : Kept m₀ m l q) (hm : HasConstants m₀.heap) :
    (if l = schemeNull then m.fresh else l) ≠ schemeNull := by
  split_ifs with hl
  · rintro heq
    obtain ⟨t, ht, -⟩ := hm.null
    rw [← heq, h.fresh] at ht
    cases ht
  · exact hl

/-- Any object with a cdr can be copied. -/
theorem Kept.run_copy (h : Kept m₀ m l q) (hs : m.heap.obj? s = some ⟨t, .pair x (some r)⟩) :
    ∃ m₁, (copyCell l q s).run m =
        some ((if l = schemeNull then m.fresh else l, m.fresh, r), m₁) ∧
      Kept m₀ m₁ (if l = schemeNull then m.fresh else l) m.fresh := by
  have hcdr := Heap.cdr?_of_obj? hs
  by_cases hl : l = schemeNull
  · have hrun := run_copyCell (q := q) (t := .pair) (a := l) (c := none)
      (fun hne => absurd hl hne) hs hcdr
    exact ⟨_, hrun, h.linked_push.2⟩
  · obtain ⟨t', a, c, hq⟩ := h.pair hl
    exact ⟨_, run_copyCell (fun _ => hq) hs hcdr, h.linked_push.2⟩

/-- A pair that is copied adds its car. -/
theorem Copied.run_copy (h : Copied m₀ m l q xs) (hm : HasConstants m₀.heap)
    (hs : m.heap.obj? s = some ⟨.pair, .pair x (some r)⟩) :
    ∃ m₁, (copyCell l q s).run m =
        some ((if l = schemeNull then m.fresh else l, m.fresh, r), m₁) ∧
      Copied m₀ m₁ (if l = schemeNull then m.fresh else l) m.fresh (xs ++ [x]) := by
  have hcdr := Heap.cdr?_of_obj? hs
  have hcell (H : Heap) (p : Ptr) (hH : H.obj? m.fresh = some ⟨.pair, .pair x (some p)⟩) :
      H.Spine m.fresh [x] p :=
    ⟨Heap.type?_of_obj? hH, Heap.car?_of_obj? hH, p, Heap.cdr?_of_obj? hH, rfl⟩
  by_cases hl : l = schemeNull
  · have hrun := run_copyCell (q := q) (t := .pair) (a := l) (c := none)
      (fun hne => absurd hl hne) hs hcdr
    obtain ⟨hfresh, hkept⟩ := h.toKept.linked_push (t := .pair) (a := l) (x := x) (c := some r)
    refine ⟨_, hrun, hkept, fun heq => absurd heq (h.toKept.ne_null hm),
      fun _ => ⟨x, some r, hfresh, ?_⟩⟩
    intro p
    rw [if_pos hl, h.empty hl]
    exact hcell _ p (Heap.obj?_insert_self (by rw [obj?_since h.toKept.fresh]; exact hfresh))
  · obtain ⟨a, c, hq, hspine⟩ := h.spine hl
    obtain ⟨hfresh, hkept⟩ := h.toKept.linked_push (t := .pair) (a := a) (x := x) (c := some r)
    refine ⟨_, run_copyCell (fun _ => hq) hs hcdr, hkept,
      fun heq => absurd heq (h.toKept.ne_null hm), fun _ => ⟨x, some r, hfresh, fun p => ?_⟩⟩
    rw [if_neg hl]
    refine ((hspine m.fresh).sub ?_).append
      (hcell _ p (Heap.obj?_insert_self (by rw [obj?_since h.toKept.fresh]; exact hfresh)))
    -- the new object is none of those copied before
    refine (h.toKept.insert_sub hl hq Memory.heap_push).insert_of_none ?_
    rw [Heap.obj?_insert_of_ne (fun heq => Memory.ne_fresh hq heq.symm),
      obj?_since h.toKept.fresh, Memory.obj?_fresh]

/-! ## The loop

One round copies a pair, goes on to the next list, or ends the copy with the last list as it is. -/

theorem result_appendFrom (n argc k : ℕ) (l q s : Ptr) :
    (appendFrom argv (n + 1) argc k l q s).result =
      if argc ≤ 1 then pure l
      else schemeType s >>= fun t =>
        if t = .pair then copyCell l q s >>= fun r =>
          (appendFrom argv n argc k r.1 r.2.1 r.2.2).result
        else if s ≠ schemeNull then pure schemeVoid
        else if argc - 1 ≤ 1 then link l q (argv k) >>= fun l =>
          (appendFrom argv n (argc - 1) (k + 1) l (argv k) (argv k)).result
        else copyCell l q (argv k) >>= fun r =>
          (appendFrom argv n (argc - 1) (k + 1) r.1 r.2.1 r.2.2).result := by
  rw [appendFrom]
  simp only [result_ite, result_bind, result_lift, result_pure, Builtins.arg, result_emit,
    pure_bind]

/-- The arguments from `argv[k]` on. -/
def Holds (argv : ℕ → Ptr) (k : ℕ) (us : List Ptr) : Prop :=
  ∀ i u, us[i]? = some u → argv (k + i) = u

theorem Holds.head {u : Ptr} (h : Holds argv k (u :: us)) : argv k = u := h 0 u rfl

theorem Holds.tail {u : Ptr} (h : Holds argv k (u :: us)) : Holds argv (k + 1) us := by
  intro i v hv
  rw [Nat.add_assoc, Nat.add_comm 1]
  exact h (i + 1) v hv

/-- The loop is left when no list but the one at `s` is left. -/
theorem ends_done (h : argc ≤ 1) :
    Ends (fun n => (appendFrom argv n argc k l q s).result) m l m :=
  .succ (.congr (fun n => result_appendFrom n argc k l q s) (.ite_pos h .pure))

section Steps

variable {u : Ptr} {m' : Memory}

/-- A pair is copied. -/
theorem ends_pair (hs : m.heap.type? s = some .pair) (hargc : 1 < argc) {l' q' s' : Ptr}
    (hrun : (copyCell l q s).run m = some ((l', q', s'), m₁))
    (h : Ends (fun n => (appendFrom argv n argc k l' q' s').result) m₁ r m') :
    Ends (fun n => (appendFrom argv n argc k l q s).result) m r m' := by
  refine .succ (.congr (fun n => result_appendFrom n argc k l q s) ?_)
  exact .ite_neg (by omega) (.run_bind (run_schemeType hs) (.ite_pos rfl (.run_bind hrun h)))

/-- What is not a list ends the loop. -/
theorem ends_stop (hs : m.heap.type? s = some t) (ht : t ≠ .pair) (hne : s ≠ schemeNull)
    (hargc : 1 < argc) :
    Ends (fun n => (appendFrom argv n argc k l q s).result) m schemeVoid m := by
  refine .succ (.congr (fun n => result_appendFrom n argc k l q s) ?_)
  exact .ite_neg (by omega) (.run_bind (run_schemeType hs) (.ite_neg ht (.ite_pos hne .pure)))

/-- The end of the last list that is copied. -/
theorem ends_last (hnull : m.heap.type? schemeNull = some t) (ht : t ≠ .pair) (hu : argv k = u)
    {l' : Ptr} (hrun : (link l q u).run m = some (l', m₁)) :
    Ends (fun n => (appendFrom argv n 2 k l q schemeNull).result) m l' m₁ := by
  refine .succ (.congr (fun n => result_appendFrom n 2 k l q schemeNull) ?_)
  refine .ite_neg (by omega) (.run_bind (run_schemeType hnull) (.ite_neg ht (.ite_neg ?_ ?_)))
  · exact not_not.mpr rfl
  · rw [hu]
    exact .ite_pos le_rfl (.run_bind hrun (ends_done le_rfl))

/-- The end of a list before that: the next argument is copied, whatever it is. -/
theorem ends_next (hnull : m.heap.type? schemeNull = some t) (ht : t ≠ .pair) (hu : argv k = u)
    (hargc : 1 < argc) {l' q' s' : Ptr} (hrun : (copyCell l q u).run m = some ((l', q', s'), m₁))
    (h : Ends (fun n => (appendFrom argv n argc (k + 1) l' q' s').result) m₁ r m') :
    Ends (fun n => (appendFrom argv n (argc + 1) k l q schemeNull).result) m r m' := by
  refine .succ (.congr (fun n => result_appendFrom n (argc + 1) k l q schemeNull) ?_)
  refine .ite_neg (by omega) (.run_bind (run_schemeType hnull) (.ite_neg ht (.ite_neg ?_ ?_)))
  · exact not_not.mpr rfl
  · rw [hu]
    exact .ite_neg (by omega) (.run_bind hrun h)

end Steps

/-! ## Lists -/

theorem Kept.null (h : Kept m₀ m l q) (hm : HasConstants m₀.heap) :
    ∃ t, m.heap.type? schemeNull = some t ∧ t ≠ .pair := by
  obtain ⟨t, ht, -⟩ := hm.null
  have htype := Heap.type?_of_obj? ht
  exact ⟨t, h.sub.type? htype, fun hpair => Primitive.null_ne_pair hm (hpair ▸ htype)⟩

/-- The pairs up to `r` are copied, with what every copy preserves. -/
theorem ends_spine (xs : List Ptr) {I : Memory → Ptr → Ptr → List Ptr → Prop}
    {Q : Ptr → Memory → Prop} {ys : List Ptr} (hsub : ∀ m l q xs, I m l q xs → m₀.heap.Sub m.heap)
    (hstep : ∀ m l q xs s x r, I m l q xs → m.heap.obj? s = some ⟨.pair, .pair x (some r)⟩ →
      ∃ l' q' m₁, (copyCell l q s).run m = some ((l', q', r), m₁) ∧ I m₁ l' q' (xs ++ [x]))
    (hs : m₀.heap.Spine s ys r) (hargc : 1 < argc) (h : I m l q xs)
    (hrest : ∀ m l q, I m l q (xs ++ ys) →
      ∃ p m', Ends (fun n => (appendFrom argv n argc k l q r).result) m p m' ∧ Q p m') :
    ∃ p m', Ends (fun n => (appendFrom argv n argc k l q s).result) m p m' ∧ Q p m' := by
  induction ys generalizing m l q s xs with
  | nil =>
    obtain rfl : s = r := hs
    exact hrest m l q (by rwa [List.append_nil])
  | cons y ys ih =>
    obtain ⟨s', ho, hs'⟩ := hs.pair
    have ho := hsub m l q xs h s _ ho
    obtain ⟨l', q', m₁, hrun, h₁⟩ := hstep m l q xs s y s' h ho
    obtain ⟨p, m', hends, hQ⟩ := ih _ hs' h₁ fun m l q hI =>
      hrest m l q (by rwa [List.append_assoc] at hI)
    exact ⟨p, m', ends_pair (Heap.type?_of_obj? ho) hargc hrun hends, hQ⟩

/-- **The lists are copied** one after the other, and the last argument that is taken becomes the
tail. -/
theorem ends_lists (hm : HasConstants m₀.heap) {fs : List Ptr} {yss : List (List Ptr)} {u : Ptr}
    (hfs : List.Forall₂ (fun f ys => m₀.heap.Spine f ys schemeNull ∧ ys ≠ []) fs yss)
    {ys : List Ptr} (h : Copied m₀ m l q xs) (hs : m₀.heap.Spine s ys schemeNull)
    (hargv : Holds argv k (fs ++ [u])) :
    ∃ r m', Ends (fun n => (appendFrom argv n (fs.length + 2) k l q s).result) m r m' ∧
      m₀.heap.Sub m'.heap ∧ (since m₀ m').Spine r (xs ++ ys ++ yss.flatten) u := by
  have hstep (m : Memory) (l q : Ptr) (xs : List Ptr) (s x r : Ptr) (h : Copied m₀ m l q xs)
      (ho : m.heap.obj? s = some ⟨.pair, .pair x (some r)⟩) : ∃ l' q' m₁,
      (copyCell l q s).run m = some ((l', q', r), m₁) ∧ Copied m₀ m₁ l' q' (xs ++ [x]) := by
    obtain ⟨m₁, hrun, h₁⟩ := h.run_copy hm ho
    exact ⟨_, _, m₁, hrun, h₁⟩
  induction hfs generalizing m l q s k xs ys with
  | nil =>
    refine ends_spine _ (fun _ _ _ _ h => h.sub) hstep hs (by omega) h fun m l q h => ?_
    obtain ⟨t, hnull, ht⟩ := h.toKept.null hm
    obtain ⟨m₁, hrun, hspine, hsub⟩ := h.run_tail u
    refine ⟨_, m₁, ends_last hnull ht hargv.head hrun, hsub, ?_⟩
    rwa [List.flatten_nil, List.append_nil]
  | @cons f zs fs yss hf hfs ih =>
    refine ends_spine _ (fun _ _ _ _ h => h.sub) hstep hs (by omega) h fun m l q h => ?_
    obtain ⟨t, hnull, ht⟩ := h.toKept.null hm
    obtain ⟨x, zs, rfl⟩ := List.exists_cons_of_ne_nil hf.2
    obtain ⟨r, ho, hr⟩ := hf.1.pair
    obtain ⟨l', q', m₁, hrun, h₁⟩ := hstep m l q _ f x r h (h.sub f _ ho)
    obtain ⟨p, m', hends, hsub, hspine⟩ := ih h₁ hr hargv.tail
    have hargc : 1 < fs.length + 2 := by omega
    refine ⟨p, m', ends_next hnull ht hargv.head hargc hrun hends, hsub, ?_⟩
    simpa only [List.flatten_cons, List.append_assoc, List.cons_append, List.nil_append]
      using hspine

/-! ## What is no list

Where a list before the last argument ends in something else than `()`, the loop returns
`scheme_void`. -/

/-- The pairs from `p` on end in something that is neither a pair nor the empty list. -/
def Breaks (H : Heap) (p : Ptr) : Prop :=
  ∃ xs q t, H.Spine p xs q ∧ H.type? q = some t ∧ t ≠ .pair ∧ q ≠ schemeNull

/-- The list at `s` breaks off; or it ends, and so does each of the next arguments but the last,
without its first pair or whatever it has in the place of it, until one breaks off. -/
def Voids (H : Heap) : List Ptr → Ptr → Prop
  | u :: us, s => Breaks H s ∨ us ≠ [] ∧ (∃ ys, H.Spine s ys schemeNull) ∧
      ∃ t x r, H.obj? u = some ⟨t, .pair x (some r)⟩ ∧ Voids H us r
  | [], _ => False

/-- Where the condition holds, the loop returns `schemeVoid`. -/
theorem ends_void (hm : HasConstants m₀.heap) (hvoid : Voids m₀.heap us s) (h : Kept m₀ m l q)
    (hargv : Holds argv k us) : ∃ m',
      Ends (fun n => (appendFrom argv n (us.length + 1) k l q s).result) m schemeVoid m' := by
  have hstep (m : Memory) (l q : Ptr) (_ : List Ptr) (s x r : Ptr) (h : Kept m₀ m l q)
      (ho : m.heap.obj? s = some ⟨.pair, .pair x (some r)⟩) : ∃ l' q' m₁,
      (copyCell l q s).run m = some ((l', q', r), m₁) ∧ Kept m₀ m₁ l' q' := by
    obtain ⟨m₁, hrun, h₁⟩ := h.run_copy ho
    exact ⟨_, _, m₁, hrun, h₁⟩
  suffices hends : ∃ p m', Ends (fun n => (appendFrom argv n (us.length + 1) k l q s).result) m p
      m' ∧ p = schemeVoid by
    obtain ⟨_, m', hends, rfl⟩ := hends
    exact ⟨m', hends⟩
  induction us generalizing m l q s k with
  | nil => exact hvoid.elim
  | cons u us ih =>
    have hargc : 1 < us.length + 1 + 1 := by omega
    rcases hvoid with ⟨xs, p, t, hs, hp, ht, hne⟩ | ⟨hus, ⟨ys, hs⟩, t, x, r, hu, hr⟩
    · refine ends_spine [] (I := fun m l q _ => Kept m₀ m l q) (fun _ _ _ _ h => h.sub)
        hstep hs hargc h fun m l q h => ?_
      exact ⟨_, m, ends_stop (h.sub.type? hp) ht hne hargc, rfl⟩
    · refine ends_spine [] (I := fun m l q _ => Kept m₀ m l q) (fun _ _ _ _ h => h.sub)
        hstep hs hargc h fun m l q h => ?_
      obtain ⟨t', hnull, ht'⟩ := h.null hm
      obtain ⟨m₁, hrun, h₁⟩ := h.run_copy (h.sub u _ hu)
      obtain ⟨p, m', hends, hp⟩ := ih hr h₁ hargv.tail
      have hgt : 1 < us.length + 1 := Nat.succ_lt_succ (List.length_pos_iff.mpr hus)
      exact ⟨p, m', ends_next hnull ht' hargv.head hgt hrun hends, hp⟩

/-! ## What the loop returns -/

/-- The cdrs are objects. -/
def Closed (H : Heap) : Prop := ∀ p r, H.cdr? p = some r → ∃ t, H.type? r = some t

/-- The list at `s` ends, and so does each of the next arguments but the last, without its first
pair or whatever it has in the place of it. -/
def Listed (H : Heap) : List Ptr → Ptr → Prop
  | u :: us, s => (∃ ys, H.Spine s ys schemeNull) ∧
      (us = [] ∨ ∃ t x r, H.obj? u = some ⟨t, .pair x (some r)⟩ ∧ Listed H us r)
  | [], _ => False

section Pair

variable {H : Heap}

theorem Breaks.pair (ho : H.obj? s = some ⟨.pair, .pair x (some r)⟩) (h : Breaks H r) :
    Breaks H s := by
  obtain ⟨xs, q, t, hs, hq⟩ := h
  exact ⟨x :: xs, q, t,
    ⟨Heap.type?_of_obj? ho, Heap.car?_of_obj? ho, r, Heap.cdr?_of_obj? ho, hs⟩, hq⟩

theorem Voids.pair (ho : H.obj? s = some ⟨.pair, .pair x (some r)⟩) (h : Voids H us r) :
    Voids H us s := by
  cases us with
  | nil => exact h
  | cons u us =>
    rcases h with h | ⟨hus, ⟨ys, hys⟩, h⟩
    · exact .inl (h.pair ho)
    · exact .inr ⟨hus, ⟨x :: ys, Heap.type?_of_obj? ho, Heap.car?_of_obj? ho, r,
        Heap.cdr?_of_obj? ho, hys⟩, h⟩

theorem Listed.pair (ho : H.obj? s = some ⟨.pair, .pair x (some r)⟩) (h : Listed H us r) :
    Listed H us s := by
  cases us with
  | nil => exact h
  | cons u us =>
    obtain ⟨⟨ys, hys⟩, h⟩ := h
    exact ⟨⟨x :: ys, Heap.type?_of_obj? ho, Heap.car?_of_obj? ho, r, Heap.cdr?_of_obj? ho, hys⟩, h⟩

end Pair

/-- What is copied has a cdr. -/
theorem of_copyCell {w : (Ptr × Ptr × Ptr) × Memory} (h : (copyCell l q s).run m = some w) :
    ∃ t x r, m.heap.obj? s = some ⟨t, .pair x (some r)⟩ := by
  rw [copyCell, StateT.run_bind] at h
  obtain ⟨⟨o', m₁⟩, hread, h⟩ := Option.bind_eq_some_iff.mp h
  obtain ⟨o, ho, heq⟩ := Option.map_eq_some_iff.mp hread
  cases heq
  change m.heap.obj? s = some o' at ho
  rw [run_bind_of_run run_schemeAllocObj, StateT.run_bind] at h
  obtain ⟨⟨r', m₂⟩, hread', -⟩ := Option.bind_eq_some_iff.mp h
  obtain ⟨r, hr, -⟩ := Option.map_eq_some_iff.mp hread'
  change (m.push o').heap.cdr? s = some r at hr
  rw [Heap.cdr?, Memory.heap_push s o' ho] at hr
  obtain ⟨t, u⟩ := o'
  cases u with
  | pair x c => exact ⟨t, x, r, by rw [ho, show c = some r from hr]⟩
  | _ => cases hr

/-- An object that was there before has not changed. -/
theorem Kept.obj_of_type (h : Kept m₀ m l q) (ht : m₀.heap.type? s = some t)
    (ho : m.heap.obj? s = some o) : m₀.heap.obj? s = some o := by
  cases s with
  | char c => cases ho
  | obj i =>
    obtain ⟨o₀, ho₀, -⟩ := Option.map_eq_some_iff.mp ht
    have hobj := h.sub (.obj i) o₀ ho₀
    rw [ho] at hobj
    exact hobj ▸ ho₀

/-- **What the loop has returned** when it returns: `schemeVoid`, as soon as something was no list,
or else a new list, or the only list that there was. -/
theorem of_run (hm : HasConstants m₀.heap) (hclosed : Closed m₀.heap) {m' : Memory}
    (h : Kept m₀ m l q) (hs : m₀.heap.type? s = some t) (hargv : Holds argv k us)
    (hus : ∀ u ∈ us, ∃ t, m₀.heap.type? u = some t) (hne : us ≠ [])
    (hrun : ((appendFrom argv n (us.length + 1) k l q s).result).run m = some (r, m')) :
    Voids m₀.heap us s ∧ r = schemeVoid ∨
      Listed m₀.heap us s ∧
        (m₀.heap.obj? r = none ∨ l = schemeNull ∧ s = schemeNull ∧ us = [r]) := by
  induction n generalizing m l q s k us t with
  | zero => cases hrun
  | succ n ih =>
    obtain ⟨u, us, rfl⟩ := List.exists_cons_of_ne_nil hne
    rw [result_appendFrom, if_neg (by rw [List.length_cons]; omega),
      run_bind_of_run (run_schemeType (h.sub.type? hs))] at hrun
    by_cases hpair : t = .pair
    · rw [if_pos hpair, StateT.run_bind] at hrun
      obtain ⟨w, hcopy, hrun⟩ := Option.bind_eq_some_iff.mp hrun
      obtain ⟨t', x, s', ho⟩ := of_copyCell hcopy
      have ho₀ := h.obj_of_type hs ho
      obtain rfl : t' = .pair := by
        have := (Heap.type?_of_obj? ho₀).symm.trans hs
        exact (Option.some.inj this).trans hpair
      obtain ⟨m₁, hrun', h₁⟩ := h.run_copy ho
      obtain rfl := Option.some.inj (hcopy.symm.trans hrun')
      obtain ⟨t₁, ht₁⟩ := hclosed s s' (Heap.cdr?_of_obj? ho₀)
      rcases ih h₁ ht₁ hargv hus hne hrun with ⟨hvoid, hr⟩ | ⟨hlisted, hr⟩
      · exact .inl ⟨hvoid.pair ho₀, hr⟩
      · exact .inr ⟨hlisted.pair ho₀, .inl (hr.resolve_right fun hnull => h.ne_null hm hnull.1)⟩
    · rw [if_neg hpair] at hrun
      by_cases hnull : s = schemeNull
      · subst hnull
        rw [if_neg (not_not.mpr rfl), hargv.head] at hrun
        cases us with
        | nil =>
          rw [if_pos (by simp)] at hrun
          obtain ⟨m₁, hlink⟩ := h.run_link u
          rw [run_bind_of_run hlink] at hrun
          cases n with
          | zero => cases hrun
          | succ n =>
            rw [result_appendFrom, if_pos (by simp)] at hrun
            obtain ⟨rfl, -⟩ := Prod.mk.inj (Option.some.inj hrun)
            refine .inr ⟨⟨⟨[], rfl⟩, .inl rfl⟩, ?_⟩
            by_cases hl : l = schemeNull
            · exact .inr ⟨hl, rfl, by rw [if_pos hl]⟩
            · rw [if_neg hl]
              exact .inl (h.newList hl)
        | cons u₂ us =>
          rw [if_neg (by simp), StateT.run_bind] at hrun
          obtain ⟨w, hcopy, hrun⟩ := Option.bind_eq_some_iff.mp hrun
          obtain ⟨t', x, s', ho⟩ := of_copyCell hcopy
          obtain ⟨tu, htu⟩ := hus u List.mem_cons_self
          have ho₀ := h.obj_of_type htu ho
          obtain ⟨m₁, hrun', h₁⟩ := h.run_copy ho
          obtain rfl := Option.some.inj (hcopy.symm.trans hrun')
          obtain ⟨t₁, ht₁⟩ := hclosed u s' (Heap.cdr?_of_obj? ho₀)
          rcases ih h₁ ht₁ hargv.tail (fun v hv => hus v (List.mem_cons_of_mem u hv))
            (List.cons_ne_nil u₂ us) hrun with ⟨hvoid, hr⟩ | ⟨hlisted, hr⟩
          · exact .inl ⟨.inr ⟨List.cons_ne_nil u₂ us, ⟨[], rfl⟩, t', x, s', ho₀, hvoid⟩, hr⟩
          · refine .inr ⟨⟨⟨[], rfl⟩, .inr ⟨t', x, s', ho₀, hlisted⟩⟩, .inl ?_⟩
            exact hr.resolve_right fun hnull => h.ne_null hm hnull.1
      · rw [if_pos hnull] at hrun
        obtain ⟨rfl, -⟩ := Prod.mk.inj (Option.some.inj hrun)
        exact .inl ⟨.inl ⟨[], s, t, rfl, hs, hpair, hnull⟩, rfl⟩

end Append

end SchemeOs
