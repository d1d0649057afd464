import Mathlib.Data.List.Chain
import Mathlib.Data.List.Nodup
import Mathlib.Logic.Function.Iterate

/-!
# Machinery/Lasso — the nodes a successor function visits

A pointer `next : α → α` followed from a node visits finitely many nodes and then comes back to one
of them.  `Lasso next l c` says that `l` lists the visited nodes in order and that the last one
points at `c`, which is either the first node (a ring) or the last one itself (a path ending in a
self-loop).

The three edits a free list makes are local in this view: `unlink` takes one node out,
`insertLast` puts a node between the last one and the first, and `cut` hangs a self-looping node
behind a node and forgets the rest.
-/

namespace SchemeOs

variable {α : Type*} {next : α → α} {l l₁ l₂ : List α} {a c p q x : α}

/-- `l` lists the nodes reached by following `next`; the last of them points back at `c`. -/
structure Lasso (next : α → α) (l : List α) (c : α) : Prop where
  /-- Each node points at the one after it, the last one at `c`. -/
  chain : (l ++ [c]).IsChain fun x y => next x = y
  /-- No node is listed twice. -/
  nodup : l.Nodup
  /-- The way back leads to the first node or stays at the last one. -/
  closes : l.head? = some c ∨ l.getLast? = some c

/-- A path is a path for every successor function that agrees on all its nodes but the last. -/
theorem isChain_snoc_congr {next' : α → α} (h : (l ++ [c]).IsChain fun x y => next x = y)
    (hag : ∀ y ∈ l, next' y = next y) : (l ++ [c]).IsChain fun x y => next' x = y := by
  induction l with
  | nil => exact .singleton c
  | cons a l ih =>
    rw [List.cons_append, List.isChain_cons] at h ⊢
    exact ⟨fun y hy => (hag a List.mem_cons_self).trans (h.1 y hy),
      ih h.2 fun y hy => hag y (List.mem_cons_of_mem _ hy)⟩

namespace Lasso

theorem mem_closing (h : Lasso next l c) : c ∈ l :=
  h.closes.elim List.mem_of_head? List.mem_of_getLast?

/-- The successor of a node is read off the list: the node after it, or `c`. -/
theorem next_eq_head (h : Lasso next (l₁ ++ x :: l₂) c) :
    (l₂ ++ [c]).head? = some (next x) := by
  have hc := h.chain
  rw [List.append_assoc, List.cons_append] at hc
  have hx := (List.isChain_cons.mp hc.right_of_append).1
  obtain ⟨y, hy⟩ : ∃ y, (l₂ ++ [c]).head? = some y := by
    cases l₂ <;> simp
  rw [hy, hx y (by simp [hy])]

/-- Following `next` stays in the list. -/
theorem next_mem (h : Lasso next l c) (hx : x ∈ l) : next x ∈ l := by
  obtain ⟨l₁, l₂, rfl⟩ := List.append_of_mem hx
  have hh := List.mem_of_head? h.next_eq_head
  rcases List.mem_append.mp hh with hmem | hmem
  · exact List.mem_append_right _ (List.mem_cons_of_mem _ hmem)
  · rw [List.mem_singleton.mp hmem]
    exact h.mem_closing

theorem iterate_mem (h : Lasso next l c) (hx : x ∈ l) (k : ℕ) : next^[k] x ∈ l := by
  induction k with
  | zero => exact hx
  | succ k ih =>
    rw [Function.iterate_succ_apply']
    exact h.next_mem ih

/-- The predecessor of a node other than `c` stands just before it. -/
theorem split_of_next (h : Lasso next l c) (hq : q ∈ l) (hqp : next q = p) (hpc : p ≠ c) :
    ∃ l₁ l₂, l = l₁ ++ q :: p :: l₂ := by
  obtain ⟨l₁, l₂, rfl⟩ := List.append_of_mem hq
  have hh := h.next_eq_head
  cases l₂ with
  | nil =>
    rw [List.nil_append, List.head?_cons, Option.some.injEq] at hh
    exact absurd (hqp.symm.trans hh.symm) hpc
  | cons y l₂ =>
    rw [List.cons_append, List.head?_cons, Option.some.injEq] at hh
    exact ⟨l₁, l₂, by rw [hh, hqp]⟩

/-- Only `c` can be its own successor. -/
theorem eq_closing_of_next_self (h : Lasso next l c) (hx : x ∈ l) (hxx : next x = x) : x = c := by
  by_contra hne
  obtain ⟨l₁, l₂, rfl⟩ := h.split_of_next hx hxx hne
  exact (List.nodup_cons.mp h.nodup.of_append_right).1 List.mem_cons_self

/-- A node that is neither the first one nor its own successor is not `c`. -/
theorem ne_closing (h : Lasso next l c) (ha : l.head? = some a) (hpa : p ≠ a)
    (hpp : next p ≠ p) : p ≠ c := by
  rintro rfl
  rcases h.closes with hhead | hlast
  · exact hpa (Option.some.inj (hhead.symm.trans ha))
  · obtain ⟨l₁, rfl⟩ := List.getLast?_eq_some_iff.mp hlast
    exact hpp (Option.some.inj (Lasso.next_eq_head h).symm)

/-- A lasso in which some node points at the first one is a ring. -/
theorem closing_eq_head (h : Lasso next l c) (ha : l.head? = some a) (hq : q ∈ l)
    (hqa : next q = a) : c = a := by
  by_contra hne
  obtain ⟨l₁, l₂, rfl⟩ := h.split_of_next hq hqa (Ne.symm hne)
  have hnd := h.nodup
  cases l₁ <;> simp_all

/-- A lasso depends on the successors of its nodes only. -/
theorem congr_next {next' : α → α} (h : Lasso next l c) (hag : ∀ y ∈ l, next' y = next y) :
    Lasso next' l c :=
  ⟨isChain_snoc_congr h.chain hag, h.nodup, h.closes⟩

/-- The part of a lasso up to one of its nodes is a path. -/
theorem chain_prefix (h : Lasso next (l₁ ++ p :: l₂) c) :
    (l₁ ++ [p]).IsChain fun x y => next x = y :=
  h.chain.infix ⟨[], l₂ ++ [c], by simp⟩

theorem notMem_prefix (h : Lasso next (l₁ ++ p :: l₂) c) : p ∉ l₁ := fun hmem =>
  List.disjoint_of_nodup_append h.nodup hmem List.mem_cons_self

theorem notMem_suffix (h : Lasso next (l₁ ++ p :: l₂) c) : p ∉ l₂ :=
  (List.nodup_cons.mp h.nodup.of_append_right).1

/-- The node that points back at the first one of a ring is the last one. -/
theorem eq_snoc_of_next_head (h : Lasso next l c) (hc : l.head? = some c) (hq : q ∈ l)
    (hqc : next q = c) : ∃ l₁, l = l₁ ++ [q] := by
  obtain ⟨l₁, l₂, rfl⟩ := List.append_of_mem hq
  cases l₂ with
  | nil => exact ⟨l₁, rfl⟩
  | cons y l₂ =>
    have hy : y = c := by
      have hh := h.next_eq_head
      rw [List.cons_append, List.head?_cons, Option.some.injEq] at hh
      exact hh.trans hqc
    -- `c` would be listed twice: first, and again behind `q`
    have hnd := h.nodup
    cases l₁ <;> simp_all

variable [DecidableEq α]

/-- **Unlinking** a node `p ≠ c`: its predecessor takes over its successor. -/
theorem unlink (h : Lasso next (l₁ ++ q :: p :: l₂) c) (hpc : p ≠ c) :
    Lasso (Function.update next q (next p)) (l₁ ++ q :: l₂) c := by
  have hag : ∀ y, y ≠ q → Function.update next q (next p) y = next y :=
    fun y hy => Function.update_of_ne hy _ _
  have h' : Lasso next ((l₁ ++ [q]) ++ p :: l₂) c := by simpa using h
  have hp := h'.next_eq_head
  have hq₂ : ∀ y ∈ l₂, y ≠ q := fun y hy heq =>
    h.notMem_suffix (heq ▸ List.mem_cons_of_mem _ hy)
  have hpre : (l₁ ++ [q]).IsChain fun x y => Function.update next q (next p) x = y :=
    isChain_snoc_congr h.chain_prefix fun y hy => hag y fun heq => h.notMem_prefix (heq ▸ hy)
  have hsuf : (l₂ ++ [c]).IsChain fun x y => Function.update next q (next p) x = y :=
    isChain_snoc_congr ( List.IsChain.infix h.chain ⟨l₁ ++ [q, p], [], by simp⟩)
      fun y hy => hag y (hq₂ y hy)
  have hq : (q :: (l₂ ++ [c])).IsChain fun x y => Function.update next q (next p) x = y := by
    refine List.isChain_cons.mpr ⟨fun y hy => ?_, hsuf⟩
    rw [Function.update_self]
    exact Option.some.inj (hp.symm.trans hy)
  refine ⟨?_, h.nodup.sublist (by simp), ?_⟩
  · have := hpre.append_overlap hq (by simp)
    simpa using this
  · rcases h.closes with hhead | hlast
    · refine Or.inl ?_
      cases l₁ <;> simpa using hhead
    · refine Or.inr ?_
      cases l₂ with
      | nil =>
        rw [List.getLast?_append_cons] at hlast
        simp only [List.getLast?_cons_cons, List.getLast?_singleton, Option.some.injEq] at hlast
        exact absurd hlast hpc
      | cons y l₂ => simpa [List.getLast?_append_cons] using hlast

/-- **Inserting** a new node `x` in a ring, behind the node that points at the first one. -/
theorem insertLast (h : Lasso next l c) (hc : l.head? = some c) (hq : q ∈ l) (hqc : next q = c)
    (hx : x ∉ l) :
    Lasso (Function.update (Function.update next q x) x c) (l ++ [x]) c := by
  obtain ⟨l₁, rfl⟩ := h.eq_snoc_of_next_head hc hq hqc
  have hxq : q ≠ x := fun heq => hx (by simp [heq])
  have hpre : (l₁ ++ [q]).IsChain
      fun a b => Function.update (Function.update next q x) x c a = b := by
    refine isChain_snoc_congr h.chain_prefix fun y hy => ?_
    rw [Function.update_of_ne (fun heq : y = x => hx (heq ▸ List.mem_append_left _ hy)),
      Function.update_of_ne (fun heq => h.notMem_prefix (by rw [← heq]; exact hy))]
  refine ⟨?_, ?_, Or.inl (by rw [List.head?_append, hc]; rfl)⟩
  · have := List.IsChain.append_overlap hpre (show ([q] ++ [x, c]).IsChain _ from
      by simp [Function.update_of_ne hxq]) (by simp)
    simpa using this
  · exact List.nodup_append.mpr ⟨h.nodup, List.nodup_singleton x, fun a ha b hb heq =>
      hx (by rw [← List.mem_singleton.mp hb, ← heq]; exact ha)⟩

/-- **Cutting** a lasso behind `p`: a new node `x` that points at itself ends it. -/
theorem cut (h : Lasso next (l₁ ++ p :: l₂) c) (hx : x ∉ l₁ ++ p :: l₂) :
    Lasso (Function.update (Function.update next p x) x x) (l₁ ++ [p, x]) x := by
  have hpx : p ≠ x := fun heq => hx (by simp [heq])
  have hpre : (l₁ ++ [p]).IsChain
      fun a b => Function.update (Function.update next p x) x x a = b := by
    refine isChain_snoc_congr h.chain_prefix fun y hy => ?_
    rw [Function.update_of_ne (fun heq : y = x => hx (heq ▸ List.mem_append_left _ hy)),
      Function.update_of_ne (fun heq => h.notMem_prefix (by rw [← heq]; exact hy))]
  refine ⟨?_, ?_, Or.inr (by simp)⟩
  · have := List.IsChain.append_overlap hpre (show ([p] ++ [x, x]).IsChain _ from
      by simp [Function.update_of_ne hpx]) (by simp)
    simpa using this
  · have hnd : (l₁ ++ [p]).Nodup := h.nodup.sublist (by simp)
    have hx' : x ∉ l₁ ++ [p] := fun hmem => hx (by
      rcases List.mem_append.mp hmem with hm | hm
      · exact List.mem_append_left _ hm
      · simp [List.mem_singleton.mp hm])
    have := List.nodup_append.mpr ⟨hnd, List.nodup_singleton x, fun a ha b hb heq =>
      hx' (by rw [← List.mem_singleton.mp hb, ← heq]; exact ha)⟩
    simpa using this

end Lasso

end SchemeOs
