import SchemeOs.Interpreter.Environment
import SchemeOs.Machinery.Scopes
import Mathlib.Data.List.Nodup

/-!
# Interpreter/Frames — environments as they lie in memory

A `Frame` is an environment read off the memory: its object, its binding record, its block and the
slots in use.  The operations on environments are those on frames; frames whose records and blocks
are apart do not disturb each other, and a list of frames whose enclosing environments are among
those before them is a store of scopes.
-/

namespace SchemeOs

/-! ## Slots

The list of slots that are in use, and how the search for a name goes through it. -/

/-- The value in the first slot of `x`. -/
def findBinding (slots : List Binding) (x : Ptr) : Option Ptr :=
  (slots.find? fun s => s.var = x).map Binding.val

/-- The slots with `x` bound to `v`: in the first slot of `x`, in a new last one when there is
none. -/
def setBinding : List Binding → Ptr → Ptr → List Binding
  | [], x, v => [⟨x, v⟩]
  | s :: slots, x, v => if s.var = x then ⟨x, v⟩ :: slots else s :: setBinding slots x v

section Slots

variable {slots pre post : List Binding} {rest : List (Option Binding)} {x y v : Ptr} {s : Binding}

/-- A name that has no slot gets the next one. -/
theorem setBinding_of_notMem (h : x ∉ slots.map Binding.var) :
    setBinding slots x v = slots ++ [⟨x, v⟩] := by
  induction slots with
  | nil => rfl
  | cons s slots ih =>
    rw [List.map_cons, List.mem_cons, not_or] at h
    rw [setBinding, if_neg (Ne.symm h.1), ih h.2, List.cons_append]

theorem length_setBinding_of_notMem (h : x ∉ slots.map Binding.var) :
    (setBinding slots x v).length = slots.length + 1 := by
  rw [setBinding_of_notMem h, List.length_append, List.length_singleton]

/-- The first slot of a name gets the value. -/
theorem setBinding_append (post : List Binding) (v : Ptr) (h : x ∉ pre.map Binding.var)
    (hs : s.var = x) :
    setBinding (pre ++ s :: post) x v = pre ++ ⟨x, v⟩ :: post := by
  induction pre with
  | nil => rw [List.nil_append, setBinding, if_pos hs, List.nil_append]
  | cons a pre ih =>
    rw [List.map_cons, List.mem_cons, not_or] at h
    rw [List.cons_append, setBinding, if_neg (Ne.symm h.1), ih h.2, List.cons_append]

/-- The slots before the first one of a name that is bound. -/
theorem exists_first (h : x ∈ slots.map Binding.var) :
    ∃ pre s post, slots = pre ++ s :: post ∧ x ∉ pre.map Binding.var ∧ s.var = x := by
  induction slots with
  | nil => exact absurd h (by simp)
  | cons a slots ih =>
    by_cases ha : a.var = x
    · exact ⟨[], a, slots, rfl, by simp, ha⟩
    · rw [List.map_cons, List.mem_cons] at h
      obtain ⟨pre, s, post, rfl, hpre, hs⟩ := ih (h.resolve_left (Ne.symm ha))
      refine ⟨a :: pre, s, post, rfl, ?_, hs⟩
      rw [List.map_cons, List.mem_cons, not_or]
      exact ⟨Ne.symm ha, hpre⟩

theorem findBinding_of_notMem (h : x ∉ slots.map Binding.var) : findBinding slots x = none := by
  rw [findBinding, Option.map_eq_none_iff, List.find?_eq_none]
  intro s hs hx
  exact h (List.mem_map.mpr ⟨s, hs, of_decide_eq_true hx⟩)

/-- The first slot of the name is found. -/
theorem findBinding_append (h : x ∉ pre.map Binding.var) (hs : s.var = x) :
    findBinding (pre ++ s :: post) x = some s.val := by
  have hpre := findBinding_of_notMem h
  rw [findBinding, Option.map_eq_none_iff] at hpre
  rw [findBinding, List.find?_append, hpre, Option.none_or,
    List.find?_cons_of_pos (by simpa using hs), Option.map_some]

/-- The loop over the slots finds no slot of a name that is not bound. -/
theorem findSlot_of_notMem (rest : List (Option Binding)) (h : x ∉ slots.map Binding.var) :
    findSlot x slots.length (slots.map some ++ rest) = some none := by
  induction slots with
  | nil => rfl
  | cons a slots ih =>
    rw [List.map_cons, List.mem_cons, not_or] at h
    simp [findSlot, Ne.symm h.1, ih h.2]

/-- The loop over the slots finds the first slot of a name that is bound. -/
theorem findSlot_append (post : List Binding) (rest : List (Option Binding))
    (h : x ∉ pre.map Binding.var) (hs : s.var = x) :
    findSlot x (pre ++ s :: post).length ((pre ++ s :: post).map some ++ rest) =
      some (some pre.length) := by
  induction pre with
  | nil => simp [findSlot, hs]
  | cons a pre ih =>
    rw [List.map_cons, List.mem_cons, not_or] at h
    have := ih h.2
    simp only [List.cons_append, List.length_cons, List.map_cons, findSlot, if_neg (Ne.symm h.1),
      this, Option.map_some]

/-- The value in a slot. -/
theorem slotVal_append : slotVal ((pre ++ s :: post).map some ++ rest) pre.length = some s.val := by
  simp [slotVal]

/-- Writing a slot that is in use. -/
theorem set_append :
    ((pre ++ s :: post).map some ++ rest).set pre.length (some ⟨x, v⟩) =
      (pre ++ ⟨x, v⟩ :: post).map some ++ rest := by
  simp

/-- **The slot of a name that is bound**: the loop over the slots stops there, it holds the value of
the name, and who writes it binds the name. -/
theorem exists_slot (rest : List (Option Binding)) (h : x ∈ slots.map Binding.var) :
    ∃ k w, findBinding slots x = some w ∧
      findSlot x slots.length (slots.map some ++ rest) = some (some k) ∧
      slotVal (slots.map some ++ rest) k = some w ∧ k < (slots.map some ++ rest).length ∧
      ∀ v, (slots.map some ++ rest).set k (some ⟨x, v⟩) =
        (setBinding slots x v).map some ++ rest := by
  obtain ⟨pre, s, post, rfl, hpre, hs⟩ := exists_first h
  refine ⟨pre.length, s.val, findBinding_append hpre hs, findSlot_append post rest hpre hs,
    slotVal_append, by simp, fun v => ?_⟩
  rw [set_append, setBinding_append post v hpre hs]

/-- Binding a name to what it is bound to changes nothing. -/
theorem setBinding_self (h : findBinding slots x = some v) : setBinding slots x v = slots := by
  have hmem : x ∈ slots.map Binding.var := by
    by_contra hnot
    rw [findBinding_of_notMem hnot] at h
    cases h
  obtain ⟨pre, s, post, rfl, hpre, hs⟩ := exists_first hmem
  rw [findBinding_append hpre hs, Option.some.injEq] at h
  rw [setBinding_append post v hpre hs, ← hs, ← h]

theorem set_snoc {o : Option Binding} :
    (slots.map some ++ o :: rest).set slots.length (some s) =
      (slots ++ [s]).map some ++ rest := by
  simp

/-- Writing the next slot. -/
theorem set_next {o : Option Binding} (h : x ∉ slots.map Binding.var) :
    (slots.map some ++ o :: rest).set slots.length (some ⟨x, v⟩) =
      (setBinding slots x v).map some ++ rest := by
  rw [setBinding_of_notMem h, set_snoc]

/-- **Binding a name changes the value of that name only.** -/
theorem findBinding_setBinding :
    findBinding (setBinding slots x v) y = if y = x then some v else findBinding slots y := by
  induction slots with
  | nil =>
    by_cases h : y = x
    · simp [setBinding, findBinding, h]
    · simp [setBinding, findBinding, h, Ne.symm h]
  | cons s slots ih =>
    unfold findBinding at ih ⊢
    by_cases hs : s.var = x
    · by_cases h : y = x
      · simp [setBinding, hs, h]
      · simp [setBinding, hs, h, Ne.symm h]
    · by_cases hy : s.var = y
      · have hyx : y ≠ x := fun h => hs (hy.trans h)
        simp [setBinding, hy, hyx]
      · simp [setBinding, hs, hy, ih]

/-- The names afterwards. -/
theorem map_var_setBinding (slots : List Binding) (x v : Ptr) :
    (setBinding slots x v).map Binding.var =
      if x ∈ slots.map Binding.var then slots.map Binding.var
      else slots.map Binding.var ++ [x] := by
  by_cases h : x ∈ slots.map Binding.var
  · obtain ⟨pre, s, post, rfl, hpre, hs⟩ := exists_first h
    rw [if_pos h, setBinding_append post v hpre hs]
    simp [hs]
  · rw [if_neg h, setBinding_of_notMem h]
    simp

theorem length_setBinding_of_mem (h : x ∈ slots.map Binding.var) :
    (setBinding slots x v).length = slots.length := by
  have hlen := congrArg List.length (map_var_setBinding slots x v)
  rwa [if_pos h, List.length_map, List.length_map] at hlen

end Slots

/-! ## Frames

An environment with its record, its block and its names, which other environments have no part in.
-/

/-- Names made by binding `params` and then one new name after the other. -/
def Named (params names : List Ptr) : Prop :=
  ∃ later, names = params ++ later ∧ later.Nodup ∧ ∀ x ∈ later, x ∉ params

/-- A name that is new. -/
theorem Named.snoc {params names : List Ptr} {x : Ptr} (h : Named params names) (hx : x ∉ names) :
    Named params (names ++ [x]) := by
  obtain ⟨later, rfl, hnodup, happart⟩ := h
  rw [List.mem_append, not_or] at hx
  refine ⟨later ++ [x], List.append_assoc .., ?_, ?_⟩
  · rw [List.nodup_append]
    exact ⟨hnodup, List.nodup_singleton x, fun a ha b hb hab => hx.2 (by
      rw [List.mem_singleton] at hb
      rwa [← hb, ← hab])⟩
  · intro y hy
    rcases List.mem_append.mp hy with hy | hy
    · exact happart y hy
    · rw [List.mem_singleton.mp hy]
      exact hx.1

/-- An environment as it lies in memory: where it is, the parameters it was made with, its slots in
use, and the environment around it. -/
structure Frame where
  env : Ptr
  record : ℕ
  block : ℕ
  maxBind : ℕ
  params : List Ptr
  slots : List Binding
  enclosing : Ptr
  named : Named params (slots.map Binding.var)

namespace Frame

/-- The frame is what the memory holds of the environment. -/
structure In (f : Frame) (m : Memory) : Prop where
  env : m.env? f.env = some (f.record, f.enclosing)
  record : m.bindings[f.record]? = some ⟨f.slots.length, f.maxBind, f.block⟩
  block : ∃ rest, m.block? f.block = some (f.slots.map some ++ rest) ∧
    f.slots.length + rest.length = f.maxBind

/-- The frames share neither object nor record nor block. -/
def Apart (f g : Frame) : Prop := f.env ≠ g.env ∧ f.record ≠ g.record ∧ f.block ≠ g.block

theorem Apart.symm {f g : Frame} (h : f.Apart g) : g.Apart f := ⟨h.1.symm, h.2.1.symm, h.2.2.symm⟩

/-- The value of `x` in the frame. -/
def find (f : Frame) (x : Ptr) : Option Ptr := findBinding f.slots x

/-- Binding `x` takes a slot that the block does not have. -/
def Grows (f : Frame) (x : Ptr) : Prop := x ∉ f.slots.map Binding.var ∧ f.slots.length = f.maxBind

instance (f : Frame) (x : Ptr) : Decidable (f.Grows x) := inferInstanceAs (Decidable (_ ∧ _))

/-- The frame with `x` bound to `v`; when it has to grow, its slots move to the block `b`. -/
def define (f : Frame) (x v : Ptr) (b : ℕ) : Frame :=
  { f with
    slots := setBinding f.slots x v
    block := if f.Grows x then b else f.block
    maxBind := if f.Grows x then f.maxBind + bindingSlotsSize else f.maxBind
    named := by
      rw [map_var_setBinding]
      split_ifs with h
      · exact f.named
      · exact f.named.snoc h }

@[simp] theorem env_define (f : Frame) (x v : Ptr) (b : ℕ) : (f.define x v b).env = f.env := rfl

@[simp] theorem record_define (f : Frame) (x v : Ptr) (b : ℕ) :
    (f.define x v b).record = f.record := rfl

@[simp] theorem enclosing_define (f : Frame) (x v : Ptr) (b : ℕ) :
    (f.define x v b).enclosing = f.enclosing := rfl

@[simp] theorem params_define (f : Frame) (x v : Ptr) (b : ℕ) :
    (f.define x v b).params = f.params := rfl

@[simp] theorem slots_define (f : Frame) (x v : Ptr) (b : ℕ) :
    (f.define x v b).slots = setBinding f.slots x v := rfl

theorem block_define (f : Frame) (x v : Ptr) (b : ℕ) :
    (f.define x v b).block = if f.Grows x then b else f.block := rfl

theorem maxBind_define (f : Frame) (x v : Ptr) (b : ℕ) :
    (f.define x v b).maxBind = if f.Grows x then f.maxBind + bindingSlotsSize else f.maxBind := rfl

/-- Only the name that is defined gets another value. -/
theorem find_define (f : Frame) (x v y : Ptr) (b : ℕ) :
    (f.define x v b).find y = if y = x then some v else f.find y :=
  findBinding_setBinding

/-- A frame is untouched by what changes neither its object, nor its record, nor its block. -/
theorem In.congr {f : Frame} {m m' : Memory} (h : f.In m) (henv : m'.env? f.env = m.env? f.env)
    (hrecord : m'.bindings[f.record]? = m.bindings[f.record]?)
    (hblock : m'.block? f.block = m.block? f.block) : f.In m' :=
  ⟨henv.trans h.env, hrecord.trans h.record, by rw [hblock]; exact h.block⟩

theorem In.record_lt {f : Frame} {m : Memory} (h : f.In m) : f.record < m.bindings.length :=
  (List.getElem?_eq_some_iff.mp h.record).1

theorem In.block_lt {f : Frame} {m : Memory} (h : f.In m) : f.block < m.blocks.length := by
  obtain ⟨rest, hrest, -⟩ := h.block
  exact SchemeOs.block_lt hrest

end Frame

end SchemeOs
