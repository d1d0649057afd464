import Mathlib.Data.List.Count
import Mathlib.Data.List.Nodup

/-!
# Machinery/Occurrences — names that are placed behind their uses

A text uses names and places them.  It is `Resolved` up to the names `later` when each use is
followed by the place of its name, or its name is one of `later`; texts are resolved part by part.
-/

namespace SchemeOs

/-- A name is used, or it is placed. -/
inductive Occurrence (α : Type*) where
  | use (a : α)
  | place (a : α)

variable {α : Type*} {os os' : List (Occurrence α)} {later later' : List α} {a : α}

/-- The names that are placed. -/
def places : List (Occurrence α) → List α
  | [] => []
  | .use _ :: os => places os
  | .place a :: os => a :: places os

/-- Each use is followed by the place of its name, there or in what comes later. -/
def Resolved (later : List α) : List (Occurrence α) → Prop
  | [] => True
  | .use a :: os => a ∈ places os ++ later ∧ Resolved later os
  | .place _ :: os => Resolved later os

/-- Each use names what is placed once, and behind it. -/
def PlacedBehind [DecidableEq α] (os : List (Occurrence α)) : Prop :=
  ∀ before a behind, os = before ++ .use a :: behind →
    (places before).count a = 0 ∧ (places behind).count a = 1

@[simp] theorem places_append (os os' : List (Occurrence α)) :
    places (os ++ os') = places os ++ places os' := by
  induction os with
  | nil => rfl
  | cons o os ih =>
    cases o with
    | use a => exact ih
    | place a => exact congrArg (a :: ·) ih

theorem resolved_append : Resolved later (os ++ os') ↔
    Resolved (places os' ++ later) os ∧ Resolved later os' := by
  induction os with
  | nil => exact (and_iff_right trivial).symm
  | cons o os ih =>
    cases o with
    | use a =>
      rw [List.cons_append, Resolved, Resolved, ih, places_append, List.append_assoc, and_assoc]
    | place a => exact ih

theorem Resolved.mono (h : Resolved later os) (hsub : later ⊆ later') : Resolved later' os := by
  induction os with
  | nil => trivial
  | cons o os ih =>
    cases o with
    | use a =>
      refine ⟨?_, ih h.2⟩
      rcases List.mem_append.mp h.1 with hmem | hmem
      · exact List.mem_append_left _ hmem
      · exact List.mem_append_right _ (hsub hmem)
    | place a => exact ih h

/-- **Names that are placed once** are placed behind their uses where all uses are resolved. -/
theorem Resolved.placedBehind [DecidableEq α] (h : Resolved [] os) (hnodup : (places os).Nodup) :
    PlacedBehind os := by
  rintro before a behind rfl
  have hmem := (resolved_append.mp h).2.1
  rw [List.append_nil] at hmem
  rw [places_append] at hnodup
  have hbefore : a ∉ places before := fun hin => List.disjoint_of_nodup_append hnodup hin hmem
  exact ⟨List.count_eq_zero_of_not_mem hbefore,
    List.count_eq_one_of_mem hnodup.of_append_right hmem⟩

end SchemeOs
