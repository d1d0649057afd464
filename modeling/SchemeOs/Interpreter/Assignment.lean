import SchemeOs.Interpreter.EnvironmentRuns

/-!
# Interpreter/Assignment — `scheme_set_var` against `scheme_lookup_var`

A lookup goes through all frames of a chain, an assignment only through the innermost one.  An
assignment does what it should when it is that frame that binds the name, or none.
-/

namespace SchemeOs

variable {m m' : Memory} {fs : List Frame} {f : Frame} {σ : Scopes Ptr Ptr} {i j : ℕ} {x v w : Ptr}

/-- The innermost scope of the chain of `i` that binds `x`. -/
def Scopes.binder (σ : Scopes Ptr Ptr) (i : ℕ) (x : Ptr) : Option ℕ :=
  (σ.chain i).find? fun j => (σ.here j x).isSome

/-- **What an assignment is for**: it changes the binding that a lookup finds, and only that one;
it returns `schemeVoid` and changes nothing exactly when there is none. -/
def SetsVar (m : Memory) (fs : List Frame) (σ : Scopes Ptr Ptr) (i : ℕ) (e x v : Ptr) : Prop :=
  ∃ r m', (schemeSetVar x v e).run m = some (r, m') ∧
    (r = schemeVoid ∧ m' = m ↔ σ.lookup i x = none) ∧
    ∀ j, σ.binder i x = some j →
      (∃ g b, fs[j]? = some g ∧ Represents m' (fs.set j (g.define x v b)) (σ.define j x v)) ∧
      Ends (fun n => schemeLookupVar n x e) m' v m'

theorem Scopes.binder_of_here (h : σ.here i x = some w) : σ.binder i x = some i := by
  rw [binder, chain, List.find?_cons_of_pos (by rw [h]; rfl)]

theorem Scopes.lookup_of_here (h : σ.here i x = some w) : σ.lookup i x = some w := by
  rw [lookup, chain, List.findSome?_cons, h]

theorem Scopes.binder_of_lookup (h : σ.lookup i x = none) : σ.binder i x = none := by
  rw [lookup, List.findSome?_eq_none_iff] at h
  rw [binder, List.find?_eq_none]
  intro j hj
  rw [h j hj]
  decide

/-- A computation has one result. -/
theorem run_unique {α : Type} {c : Comp α} {a b : α} {m₁ m₂ : Memory}
    (ha : c.run m = some (a, m₁)) (hb : c.run m = some (b, m₂)) : a = b ∧ m₁ = m₂ :=
  Prod.ext_iff.mp (Option.some.inj (ha.symm.trans hb))

/-! ## Assignment in one frame -/

/-- In a frame that binds the name, assigning is defining. -/
theorem schemeSetVar_bound (hf : f.In m) (hx : x ∈ f.slots.map Binding.var) :
    ∃ w, f.find x = some w ∧ (schemeSetVar x v f.env).run m =
      ((schemeDefineVar x v f.env).run m).map fun r => (w, r.2) := by
  obtain ⟨rest, hblock, -⟩ := hf.block
  obtain ⟨k, w, hw, hfind, hval, hlt, -⟩ := exists_slot rest hx
  have hwrite := run_writeSlot (s := ⟨x, v⟩) hblock hlt
  refine ⟨w, hw, ?_⟩
  simp [schemeSetVar, schemeDefineVar, run_schemeEnv hf.env, run_loadBindings hf.record,
    run_loadBlock hblock, hfind, hval, hwrite]

/-- In a frame that does not bind the name, nothing is assigned. -/
theorem schemeSetVar_unbound (hf : f.In m) (hx : x ∉ f.slots.map Binding.var) :
    (schemeSetVar x v f.env).run m = some (schemeVoid, m) := by
  obtain ⟨rest, hblock, -⟩ := hf.block
  have hfind := findSlot_of_notMem rest hx
  simp [schemeSetVar, run_schemeEnv hf.env, run_loadBindings hf.record, run_loadBlock hblock, hfind]

/-- Defining a name as what it is changes nothing. -/
theorem schemeDefineVar_same (hf : f.In m) (hx : f.find x = some v) :
    (schemeDefineVar x v f.env).run m = some (x, m) := by
  obtain ⟨rest, hblock, -⟩ := hf.block
  have hmem : x ∈ f.slots.map Binding.var := by
    by_contra hnot
    rw [Frame.find, findBinding_of_notMem hnot] at hx
    simp at hx
  obtain ⟨k, w, -, hfind, -, hlt, hset⟩ := exists_slot rest hmem
  have hwrite := run_writeSlot (s := ⟨x, v⟩) hblock hlt
  have hsame : m.setBlock f.block ((f.slots.map some ++ rest).set k (some ⟨x, v⟩)) = m := by
    rw [hset, setBinding_self hx]
    have hget := hblock
    simp only [Memory.block?, Option.join_eq_some_iff] at hget
    obtain ⟨hlt, heq⟩ := List.getElem?_eq_some_iff.mp hget
    simp only [Memory.setBlock]
    rw [← heq, List.set_getElem_self]
  rw [hsame] at hwrite
  simp [schemeDefineVar, run_schemeEnv hf.env, run_loadBindings hf.record, run_loadBlock hblock,
    hfind, hwrite]

/-! ## Assignment in a chain of frames -/

/-- **An assignment does what it should** exactly when the innermost frame binds the name, and not
to `schemeVoid` both before and after, or when no frame binds it. -/
theorem setsVar_iff (h : Represents m fs σ) (hf : fs[i]? = some f) :
    SetsVar m fs σ i f.env x v ↔ σ.lookup i x = none ∨
      ∃ w, σ.here i x = some w ∧ ¬(w = schemeVoid ∧ v = schemeVoid) := by
  have hlies := h.lies f (List.mem_of_getElem? hf)
  have hhere := h.here i f hf x
  by_cases hx : x ∈ f.slots.map Binding.var
  · obtain ⟨w, hw, hset⟩ := schemeSetVar_bound hlies (v := v) hx
    obtain ⟨m', hdef, -, hrep⟩ := h.define hf x v
    rw [hw] at hhere
    rw [hdef, Option.map_some] at hset
    have hlookup := Scopes.lookup_of_here hhere
    have hsize : i < σ.size := by rw [h.size]; exact (List.getElem?_eq_some_iff.mp hf).1
    have hafter : Ends (fun n => schemeLookupVar n x f.env) m' v m' := by
      have hget : (fs.set i (f.define x v m.blocks.length))[i]? =
          some (f.define x v m.blocks.length) := by
        simp [(List.getElem?_eq_some_iff.mp hf).1]
      have hnow := hrep.lookup hget x
      rwa [Scopes.lookup_define_self hsize] at hnow
    constructor
    · rintro ⟨r, m'', hrun, hiff, -⟩
      obtain ⟨hr, hm''⟩ := run_unique hrun hset
      refine Or.inr ⟨w, hhere, fun ⟨hvoid, hv⟩ => ?_⟩
      have hsame := schemeDefineVar_same hlies (v := v) (by rw [hw, hvoid, hv])
      have hm : m' = m := (run_unique hdef hsame).2
      rw [hlookup] at hiff
      exact absurd (hiff.mp ⟨hr.trans hvoid, hm''.trans hm⟩) (by simp)
    · rintro (hnone | ⟨w', hw', hne⟩)
      · rw [hlookup] at hnone
        exact absurd hnone (by simp)
      · obtain rfl : w = w' := Option.some.inj (hhere.symm.trans hw')
        refine ⟨w, m', hset, ?_, fun j hj => ?_⟩
        · rw [hlookup]
          refine ⟨fun ⟨hvoid, hm⟩ => absurd ⟨hvoid, ?_⟩ hne, fun h => absurd h (by simp)⟩
          have hbefore := h.lookup hf x
          rw [hlookup, Option.getD_some] at hbefore
          rw [hm] at hafter
          rw [(hafter.unique hbefore).1, hvoid]
        · rw [Scopes.binder_of_here hhere, Option.some.injEq] at hj
          subst hj
          exact ⟨⟨f, m.blocks.length, hf, hrep⟩, hafter⟩
  · rw [Frame.find, findBinding_of_notMem hx] at hhere
    have hset := schemeSetVar_unbound hlies (v := v) hx
    constructor
    · rintro ⟨r, m', hrun, hiff, -⟩
      exact Or.inl (hiff.mp (run_unique hrun hset))
    · rintro (hnone | ⟨w, hw, -⟩)
      · exact ⟨schemeVoid, m, hset, by simp [hnone], fun j hj => by
          simp [Scopes.binder_of_lookup hnone] at hj⟩
      · rw [hhere] at hw
        exact absurd hw (by simp)

/-- The global environment with `x` as 5, and an empty one inside it. -/
def shadowless : Scopes Ptr Ptr :=
  ((Scopes.mk [⟨fun _ => none, []⟩]).define 0 (.obj 6) (.obj 7)).extend 0 (findBinding [])

theorem exists_shadowless : ∃ m fs f, Represents m fs shadowless ∧ fs[1]? = some f := by
  obtain ⟨fs, hrep, henvs, -⟩ := envInv_init
  obtain ⟨f, hf, -⟩ := exists_frame (i := 0) henvs rfl
  obtain ⟨m', -, hobjs, hrep'⟩ := hrep.define hf (.obj 6) (.obj 7)
  have hlt := (List.getElem?_eq_some_iff.mp hf).1
  have hnull : m'.heap.type? schemeNull = some .null := by
    simp only [Heap.type?, schemeNull, Memory.heap, hobjs]
    decide +kernel
  have hget : (fs.set 0 (f.define (.obj 6) (.obj 7) EnvSys.init.mem.blocks.length))[0]? =
      some (f.define (.obj 6) (.obj 7) EnvSys.init.mem.blocks.length) := by simp [hlt]
  have hvars : m'.heap.Spine schemeNull (([] : List Binding).map Binding.var) schemeNull := rfl
  have hvals : m'.heap.Spine schemeNull (([] : List Binding).map Binding.val) schemeNull := rfl
  obtain ⟨m'', -, -, hrep''⟩ := hrep'.extend hget (by decide) hnull hvars hvals
  exact ⟨m'', _, _, hrep'', List.getElem?_eq_getElem (by rw [← hrep''.size]; exact Nat.one_lt_two)⟩

theorem not_setsVar_outer : ∃ m fs f, Represents m fs shadowless ∧ fs[1]? = some f ∧
    ¬ SetsVar m fs shadowless 1 f.env (.obj 6) (.obj 5) := by
  obtain ⟨m, fs, f, hrep, hf⟩ := exists_shadowless
  refine ⟨m, fs, f, hrep, hf, fun h => ?_⟩
  obtain ⟨r, m', hrun, hiff, hall⟩ := h
  have hlies := hrep.lies f (List.mem_of_getElem? hf)
  have hx : Ptr.obj 6 ∉ f.slots.map Binding.var := fun hx => by
    obtain ⟨w, hw, -⟩ := schemeSetVar_bound hlies (v := .obj 5) hx
    have := hrep.here 1 f hf (.obj 6)
    rw [hw] at this
    exact absurd this (by simp [shadowless, Scopes.here, Scopes.extend, Scopes.define, findBinding])
  exact absurd (hiff.mp (run_unique hrun (schemeSetVar_unbound hlies hx))) (by decide +kernel)

/-- An environment that binds `x` inside the global one, which binds it too. -/
theorem setsVar_iff_inner : ∃ m fs f,
    Represents m fs (shadowless.define 1 (.obj 6) (.obj 8)) ∧ fs[1]? = some f ∧
      SetsVar m fs (shadowless.define 1 (.obj 6) (.obj 8)) 1 f.env (.obj 6) (.obj 5) := by
  obtain ⟨m, fs, f, hrep, hf⟩ := exists_shadowless
  obtain ⟨m', -, -, hrep'⟩ := hrep.define hf (.obj 6) (.obj 8)
  have hlt := (List.getElem?_eq_some_iff.mp hf).1
  have hget : (fs.set 1 (f.define (.obj 6) (.obj 8) m.blocks.length))[1]? =
      some (f.define (.obj 6) (.obj 8) m.blocks.length) := by simp [hlt]
  have hhere : (shadowless.define 1 (.obj 6) (.obj 8)).here 1 (.obj 6) = some (.obj 8) := by
    decide +kernel
  exact ⟨m', _, _, hrep', hget, (setsVar_iff hrep' hget).mpr (.inr ⟨_, hhere, by decide⟩)⟩

end SchemeOs
