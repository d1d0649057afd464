import SchemeOs.Interpreter.AppendLoop

/-!
# Interpreter/ListLength — `list?` and `length` of lists, improper lists and rings

Both primitives follow the cdrs of pairs up to something that is not a pair.  A chain that leads
back to one of its pairs, which `set-cdr!` can make, has no such end, and they follow it forever.
-/

namespace SchemeOs

open Traced Builtins

variable {m m' : Memory} {argv : ℕ → Ptr} {p q r : Ptr} {xs : List Ptr} {len n argc : ℕ}
  {t : SchemeType} {H : Heap}

/-- Every pair has a cdr, which is an object. -/
def OfPairs (H : Heap) : Prop :=
  ∀ p, H.type? p = some .pair → ∃ r t, H.cdr? p = some r ∧ H.type? r = some t

/-- Finitely many cdrs lead from `p` to the empty list. -/
def IsList (H : Heap) (p : Ptr) : Prop := ∃ xs, H.Spine p xs schemeNull

/-- Finitely many cdrs lead from `p` to something that is not a pair. -/
def HasEnd (H : Heap) (p : Ptr) : Prop := ∃ xs q, H.Spine p xs q ∧ H.type? q ≠ some .pair

/-- `list?` says whether its argument is a list, and `length` returns the number of pairs of a list,
in a new object, and `scheme_void` for everything else. -/
structure Measures (m : Memory) (argv : ℕ → Ptr) : Prop where
  listP (argc : ℕ) : ∃ b, (b = true ↔ IsList m.heap (argv 0)) ∧
    Ends (fun n => (Builtins.listP n argc argv).result) m (schemeBool b) m
  length (argc : ℕ) (xs : List Ptr) (h : m.heap.Spine (argv 0) xs schemeNull) :
    Ends (fun n => (Builtins.length n argc argv).result) m m.fresh
      (m.push ⟨.integer, .int xs.length⟩)
  void (argc : ℕ) (h : ¬IsList m.heap (argv 0)) :
    Ends (fun n => (Builtins.length n argc argv).result) m schemeVoid m

/-! ## Chains -/

/-- What comes at the end of a chain is an object. -/
theorem OfPairs.type?_of_spine (hm : OfPairs H) (hp : H.type? p = some t) (h : H.Spine p xs q) :
    ∃ t, H.type? q = some t := by
  induction xs generalizing p t with
  | nil => exact ⟨t, (h : p = q) ▸ hp⟩
  | cons x xs ih =>
    obtain ⟨htype, -, r, hcdr, hr⟩ := h
    obtain ⟨r', t', hcdr', ht'⟩ := hm p htype
    obtain rfl : r = r' := Option.some.inj (hcdr.symm.trans hcdr')
    exact ih ht' hr

/-- **The walk ends** where the chain does. -/
theorem ends_walk (h : m.heap.Spine p xs q) (hq : m.heap.type? q = some t) (ht : t ≠ .pair)
    (len : ℕ) : Ends (fun n => walk n len p) m (len + xs.length, q) m := by
  induction xs generalizing p len with
  | nil =>
    obtain rfl : p = q := h
    refine Ends.succ (Ends.run_bind (run_schemeType hq) ?_)
    exact Ends.ite_neg ht Ends.pure
  | cons x xs ih =>
    obtain ⟨htype, -, r, hcdr, hr⟩ := h
    refine Ends.succ (Ends.run_bind (run_schemeType htype) (Ends.ite_pos rfl ?_))
    refine Ends.run_bind (run_schemeCdr hcdr) ?_
    have := ih hr (len + 1)
    rwa [Nat.add_assoc, Nat.add_comm 1] at this

/-- One pair more at the beginning of a chain. -/
theorem HasEnd.cons (h : HasEnd H r) (htype : H.type? p = some .pair) (hcdr : H.cdr? p = some r) :
    HasEnd H p := by
  obtain ⟨xs, q, hspine, hq⟩ := h
  have hcar : ∃ x, H.car? p = some x := by
    unfold Heap.cdr? at hcdr
    split at hcdr
    · next t x c heq => exact ⟨x, Heap.car?_of_obj? heq⟩
    · cases hcdr
  obtain ⟨x, hcar⟩ := hcar
  exact ⟨x :: xs, q, ⟨htype, hcar, r, hcdr, hspine⟩, hq⟩

/-- A walk that returns has come to the end of the chain. -/
theorem hasEnd_of_walk {s : ℕ × Ptr} (h : (walk n len p).run m = some (s, m')) :
    HasEnd m.heap p := by
  induction n generalizing len p with
  | zero => cases h
  | succ n ih =>
    rw [walk, StateT.run_bind] at h
    obtain ⟨⟨t, m₁⟩, ht, h⟩ := Option.bind_eq_some_iff.mp h
    obtain ⟨t', htype, heq⟩ := Option.map_eq_some_iff.mp ht
    cases heq
    dsimp only at h
    split_ifs at h with hpair
    · rw [StateT.run_bind] at h
      obtain ⟨⟨r, m₂⟩, hr, h⟩ := Option.bind_eq_some_iff.mp h
      obtain ⟨r', hcdr, heq⟩ := Option.map_eq_some_iff.mp hr
      cases heq
      exact (ih h).cons (hpair ▸ htype) hcdr
    · exact ⟨[], p, rfl, fun heq => hpair (Option.some.inj (htype.symm.trans heq))⟩

/-! ## The primitives -/

theorem result_listP : (Builtins.listP n argc argv).result =
    walk n 0 (argv 0) >>= fun s => pure (schemeBool (s.2 = schemeNull)) := by
  simp [Builtins.listP, arg]

theorem result_length : (Builtins.length n argc argv).result =
    walk n 0 (argv 0) >>= fun s => if s.2 ≠ schemeNull then pure schemeVoid
      else schemeAllocObj ⟨.integer, .int s.1⟩ := by
  simp [Builtins.length, arg]

/-- Only one thing comes at the end of a chain. -/
theorem isList_iff (hm : HasConstants m.heap) (h : m.heap.Spine p xs q)
    (hq : m.heap.type? q ≠ some .pair) : IsList m.heap p ↔ q = schemeNull := by
  constructor
  · rintro ⟨ys, hys⟩
    rcases h.compare hys with ⟨u, -, hu⟩ | ⟨x, u, -, hu⟩
    · cases u with
      | nil => exact hu
      | cons x u => exact absurd hu.1 hq
    · exact absurd hu.1 (Primitive.null_ne_pair hm)
  · rintro rfl
    exact ⟨xs, h⟩

/-- **Measuring a chain with an end.** -/
theorem measures_of_spine (hm : HasConstants m.heap) (h : m.heap.Spine (argv 0) xs q)
    (hq : m.heap.type? q = some t) (ht : t ≠ .pair) : Measures m argv := by
  have hne : m.heap.type? q ≠ some .pair := by
    rw [hq]
    exact fun heq => ht (Option.some.inj heq)
  have hwalk := ends_walk h hq ht 0
  have hlist := isList_iff hm h hne
  refine ⟨fun argc => ⟨decide (q = schemeNull), ?_, ?_⟩, fun argc ys hys => ?_, fun argc hno => ?_⟩
  · rw [decide_eq_true_iff, hlist]
  · exact .congr (fun n => result_listP) (hwalk.bind .pure)
  · obtain rfl := hlist.mp ⟨ys, hys⟩
    obtain rfl : xs = ys := by
      rcases h.compare hys with ⟨u, rfl, hu⟩ | ⟨x, u, -, hu⟩
      · cases u with
        | nil => rw [List.append_nil]
        | cons x u => exact absurd hu.1 hne
      · exact absurd hu.1 hne
    refine .congr (fun n => result_length) (hwalk.bind ?_)
    refine .ite_neg (not_not.mpr rfl) ?_
    rw [Nat.zero_add]
    exact .of_run run_schemeAllocObj
  · refine .congr (fun n => result_length) (hwalk.bind ?_)
    exact .ite_pos (fun hnull => hno (hlist.mpr hnull)) .pure

/-- `list?` returns for a chain with an end only. -/
theorem Measures.hasEnd (h : Measures m argv) : HasEnd m.heap (argv 0) := by
  obtain ⟨b, -, N, hN⟩ := h.listP 1
  have hrun : (Builtins.listP N 1 argv).result.run m = some (schemeBool b, m) := hN N le_rfl
  rw [result_listP, StateT.run_bind] at hrun
  obtain ⟨⟨s, m₁⟩, hwalk, -⟩ := Option.bind_eq_some_iff.mp hrun
  exact hasEnd_of_walk hwalk

/-- **`list?` and `length` measure lists** that do not lead back to one of their pairs. -/
theorem measures_iff (hm : HasConstants m.heap) (hpairs : OfPairs m.heap)
    (hp : ∃ t, m.heap.type? (argv 0) = some t) : Measures m argv ↔ HasEnd m.heap (argv 0) := by
  constructor
  · exact Measures.hasEnd
  · rintro ⟨xs, q, hspine, hne⟩
    obtain ⟨t, ht⟩ := hp
    obtain ⟨t', hq⟩ := hpairs.type?_of_spine ht hspine
    exact measures_of_spine hm hspine hq fun heq => hne (by rw [hq, heq])

/-- A memory with a pair that is its own cdr, and one before the empty list. -/
def ring : Memory := (Memory.init.push ⟨.pair, .pair schemeTrue (some (.obj 6))⟩).push
  ⟨.pair, .pair schemeTrue (some schemeNull)⟩

theorem hasConstants_ring : HasConstants ring.heap := ⟨⟨.null, rfl, .inl rfl⟩, rfl, rfl, rfl⟩

theorem ofPairs_ring : OfPairs ring.heap := by
  intro p h
  cases p with
  | char c => cases h
  | obj i =>
    rcases i with _ | _ | _ | _ | _ | _ | _ | _ | i
    all_goals cases h
    · exact ⟨.obj 6, .pair, rfl, rfl⟩
    · exact ⟨schemeNull, .null, rfl, rfl⟩

theorem measures_iff_one : Measures ring (fun _ => .obj 7) ↔ HasEnd ring.heap (.obj 7) :=
  measures_iff hasConstants_ring ofPairs_ring ⟨.pair, rfl⟩

/-- The pair that is its own cdr is measured forever. -/
theorem not_measures : ¬∀ (m : Memory) (argv : ℕ → Ptr), HasConstants m.heap → OfPairs m.heap →
    (∃ t, m.heap.type? (argv 0) = some t) → Measures m argv := by
  intro h
  obtain ⟨xs, q, hspine, hq⟩ :=
    (h ring (fun _ => .obj 6) hasConstants_ring ofPairs_ring ⟨.pair, rfl⟩).hasEnd
  induction xs with
  | nil => exact hq ((show Ptr.obj 6 = q from hspine) ▸ rfl)
  | cons x xs ih =>
    obtain ⟨-, -, r, hcdr, hr⟩ := hspine
    obtain rfl : Ptr.obj 6 = r := Option.some.inj hcdr
    exact ih hr

end SchemeOs
