import SchemeOs.Interpreter.FrameOps
import SchemeOs.Machinery.Runs

/-!
# Interpreter/Environments — environments behave as chains of finite maps

`Represents m fs σ` says that the frames `fs` lie in the memory apart from each other, and that they
are the scopes of `σ`.  Every operation on environments keeps it, so after any sequence of
operations a lookup finds what the chain of finite maps holds.
-/

namespace SchemeOs

variable {m m' : Memory} {fs : List Frame} {f g : Frame} {σ : Scopes Ptr Ptr} {i j : ℕ} {x v : Ptr}

/-! ## Lookup in one frame -/

/-- A name that the frame binds is found in it. -/
theorem schemeLookupVar_found (hf : f.In m) (hne : f.env ≠ schemeNull)
    (hx : x ∈ f.slots.map Binding.var) :
    ∃ v, f.find x = some v ∧ Ends (fun n => schemeLookupVar n x f.env) m v m := by
  obtain ⟨rest, hblock, -⟩ := hf.block
  obtain ⟨k, w, hw, hfind, hval, -⟩ := exists_slot rest hx
  refine ⟨w, hw, Ends.succ ?_⟩
  refine Ends.ite_neg hne (Ends.run_bind (run_schemeEnv hf.env)
    (Ends.run_bind (run_loadBindings hf.record) (Ends.run_bind (run_loadBlock hblock) ?_)))
  rw [hfind]
  exact Ends.of_run (run_liftM hval)

/-- A name that the frame does not bind is looked up in the enclosing environment. -/
theorem schemeLookupVar_enclosing (hf : f.In m) (hne : f.env ≠ schemeNull)
    (hx : x ∉ f.slots.map Binding.var)
    (hv : Ends (fun n => schemeLookupVar n x f.enclosing) m v m) :
    Ends (fun n => schemeLookupVar n x f.env) m v m := by
  obtain ⟨rest, hblock, -⟩ := hf.block
  refine Ends.succ (Ends.ite_neg hne (Ends.run_bind (run_schemeEnv hf.env)
    (Ends.run_bind (run_loadBindings hf.record) (Ends.run_bind (run_loadBlock hblock) ?_))))
  rw [findSlot_of_notMem rest hx]
  exact hv

theorem schemeLookupVar_null : Ends (fun n => schemeLookupVar n x schemeNull) m schemeVoid m :=
  Ends.succ (Ends.ite_pos rfl Ends.pure)

/-! ## Frames and scopes -/

/-- The environment around the frame `f`, number `i`, is around the scope `i` as well. -/
def Enclosed (fs : List Frame) (σ : Scopes Ptr Ptr) (i : ℕ) (f : Frame) : Prop :=
  f.enclosing = schemeNull ∧ σ.chain i = [i] ∨
    ∃ j g, j < i ∧ fs[j]? = some g ∧ f.enclosing = g.env ∧ σ.chain i = i :: σ.chain j

/-- The frames lie in memory, apart from each other, and they are the scopes of `σ`. -/
structure Represents (m : Memory) (fs : List Frame) (σ : Scopes Ptr Ptr) : Prop where
  lies : ∀ f ∈ fs, f.In m
  apart : fs.Pairwise Frame.Apart
  notNull : ∀ f ∈ fs, f.env ≠ schemeNull
  size : σ.size = fs.length
  here : ∀ i f, fs[i]? = some f → ∀ x, σ.here i x = f.find x
  enclosed : ∀ i f, fs[i]? = some f → Enclosed fs σ i f

/-- **Lookup** finds what the scopes hold, `schemeVoid` when they hold nothing. -/
theorem Represents.lookup (h : Represents m fs σ) (hf : fs[i]? = some f) (x : Ptr) :
    Ends (fun n => schemeLookupVar n x f.env) m ((σ.lookup i x).getD schemeVoid) m := by
  induction i using Nat.strong_induction_on generalizing f with
  | _ i ih =>
    have hmem := List.mem_of_getElem? hf
    have hlies := h.lies f hmem
    have hne := h.notNull f hmem
    have hhere := h.here i f hf x
    by_cases hx : x ∈ f.slots.map Binding.var
    · obtain ⟨v, hv, hends⟩ := schemeLookupVar_found hlies hne hx
      have hlookup : σ.lookup i x = some v := by
        rw [Scopes.lookup, Scopes.chain, List.findSome?_cons, hhere, hv]
      rwa [hlookup, Option.getD_some]
    · rw [Frame.find, findBinding_of_notMem hx] at hhere
      rcases h.enclosed i f hf with ⟨henc, hchain⟩ | ⟨j, g, hj, hg, henc, hchain⟩
      · rw [Scopes.lookup_outermost hchain, hhere, Option.getD_none]
        exact schemeLookupVar_enclosing hlies hne hx (henc ▸ schemeLookupVar_null)
      · rw [Scopes.lookup_inside hchain, hhere, Option.none_or]
        exact schemeLookupVar_enclosing hlies hne hx (henc ▸ ih j hj hg)

/-! ## The operations keep the representation -/

theorem pairwise_set {α : Type*} {R : α → α → Prop} (hsymm : ∀ a b, R a b → R b a) {l : List α}
    {b : α} (hl : l.Pairwise R) (hb : ∀ j a, j ≠ i → l[j]? = some a → R b a) :
    (l.set i b).Pairwise R := by
  rw [List.pairwise_iff_getElem] at hl ⊢
  intro j k hj hk hjk
  rw [List.length_set] at hj hk
  rw [List.getElem_set, List.getElem_set]
  split_ifs with hij hik hik
  · omega
  · exact hb k _ (Ne.symm hik) (List.getElem?_eq_getElem hk)
  · exact hsymm _ _ (hb j _ (Ne.symm hij) (List.getElem?_eq_getElem hj))
  · exact hl j k hj hk hjk

theorem map_set_of_eq {α : Type*} {φ : Frame → α} {f f' : Frame} (hf : fs[i]? = some f)
    (h : φ f' = φ f) : (fs.set i f').map φ = fs.map φ := by
  have hget : (fs.map φ)[i]? = some (φ f) := by rw [List.getElem?_map, hf, Option.map_some]
  obtain ⟨hlt, heq⟩ := List.getElem?_eq_some_iff.mp hget
  rw [List.map_set, h, ← heq, List.set_getElem_self]

theorem Represents.apart_of_ne (h : Represents m fs σ) (hf : fs[i]? = some f)
    (hg : fs[j]? = some g) (hij : i ≠ j) : f.Apart g := by
  obtain ⟨hi, rfl⟩ := List.getElem?_eq_some_iff.mp hf
  obtain ⟨hj, rfl⟩ := List.getElem?_eq_some_iff.mp hg
  rcases Nat.lt_or_gt_of_ne hij with hlt | hlt
  · exact List.pairwise_iff_getElem.mp h.apart i j hi hj hlt
  · exact (List.pairwise_iff_getElem.mp h.apart j i hj hi hlt).symm

theorem env?_ne_fresh {e enclosing : Ptr} {r : ℕ} (h : m.env? e = some (r, enclosing)) :
    e ≠ m.fresh := by
  rintro rfl
  rw [Memory.env?, Memory.obj?_fresh] at h
  simp at h

theorem fresh_ne_null {e enclosing : Ptr} {r : ℕ} (h : m.env? e = some (r, enclosing)) :
    m.fresh ≠ schemeNull := by
  intro hnull
  have hlen : m.objs.length = 0 := Ptr.obj.inj hnull
  cases e with
  | char c => simp [Memory.env?, Heap.obj?] at h
  | obj a => simp [Memory.env?, Heap.obj?, Memory.heap, List.length_eq_zero_iff.mp hlen] at h

/-- Frames stay enclosed as they were when a frame changes, but not its object. -/
theorem Enclosed.set (h : Enclosed fs σ j g) (hf : fs[i]? = some f) {f' : Frame}
    (henv : f'.env = f.env) : Enclosed (fs.set i f') (σ.define i x v) j g := by
  rcases h with ⟨henc, hchain⟩ | ⟨k, g', hk, hg', henc, hchain⟩
  · exact Or.inl ⟨henc, by rw [Scopes.chain_define, hchain]⟩
  · by_cases hik : i = k
    · subst hik
      obtain rfl : f = g' := Option.some.inj (hf.symm.trans hg')
      have hi := (List.getElem?_eq_some_iff.mp hf).1
      exact Or.inr ⟨i, f', hk, by simp [hi], by rw [henc, henv], by simp [hchain]⟩
    · exact Or.inr ⟨k, g', hk, by rw [List.getElem?_set_ne hik, hg'], henc, by simp [hchain]⟩

/-- **Defining a name** is defining it in the scope. -/
theorem Represents.define (h : Represents m fs σ) (hf : fs[i]? = some f) (x v : Ptr) :
    ∃ m', (schemeDefineVar x v f.env).run m = some (x, m') ∧ m'.objs = m.objs ∧
      Represents m' (fs.set i (f.define x v m.blocks.length)) (σ.define i x v) := by
  have hlies := h.lies f (List.mem_of_getElem? hf)
  obtain ⟨m', hrun, hin, hsame⟩ := schemeDefineVar_spec hlies (x := x) (v := v)
  have hi := (List.getElem?_eq_some_iff.mp hf).1
  have hget : ∀ j g, (fs.set i (f.define x v m.blocks.length))[j]? = some g →
      j = i ∧ g = f.define x v m.blocks.length ∨ j ≠ i ∧ fs[j]? = some g := by
    intro j g hg
    rw [List.getElem?_set] at hg
    split_ifs at hg with hij
    · exact Or.inl ⟨hij.symm, (Option.some.inj hg).symm⟩
    · exact Or.inr ⟨Ne.symm hij, hg⟩
  refine ⟨m', hrun, hsame.objs, fun g hg => ?_, ?_, fun g hg => ?_, ?_, fun j g hg y => ?_,
    fun j g hg => ?_⟩
  · obtain ⟨j, hj⟩ := List.mem_iff_getElem?.mp hg
    rcases hget j g hj with ⟨-, rfl⟩ | ⟨hji, hg⟩
    · exact hin
    · exact hsame.keeps (h.lies g (List.mem_of_getElem? hg)) (h.apart_of_ne hf hg hji.symm)
  · refine pairwise_set (fun _ _ => Frame.Apart.symm) h.apart fun j g hji hg => ?_
    have hapart := h.apart_of_ne hf hg hji.symm
    refine ⟨hapart.1, hapart.2.1, ?_⟩
    rw [Frame.block_define]
    split_ifs
    · exact (h.lies g (List.mem_of_getElem? hg)).block_lt.ne'
    · exact hapart.2.2
  · obtain ⟨j, hj⟩ := List.mem_iff_getElem?.mp hg
    rcases hget j g hj with ⟨-, rfl⟩ | ⟨-, hg⟩
    · exact h.notNull f (List.mem_of_getElem? hf)
    · exact h.notNull g (List.mem_of_getElem? hg)
  · rw [Scopes.size_define, h.size, List.length_set]
  · rcases hget j g hg with ⟨rfl, rfl⟩ | ⟨hji, hg⟩
    · rw [Scopes.here_define (by rw [h.size]; exact hi), Frame.find_define, h.here j f hf]
      simp
    · rw [Scopes.here_define_of_ne (Or.inl hji), h.here j g hg]
  · rcases hget j g hg with ⟨rfl, rfl⟩ | ⟨-, hg⟩
    · exact (h.enclosed j f hf).set hf rfl
    · exact (h.enclosed j g hg).set hf rfl

/-- Frames stay enclosed as they were when a new one is made. -/
theorem Enclosed.snoc (h : Enclosed fs σ j g) (hsize : σ.size = fs.length) (hj : j < fs.length)
    {f' : Frame} {vars : Ptr → Option Ptr} : Enclosed (fs ++ [f']) (σ.extend i vars) j g := by
  have hchain' : ∀ k ≤ j, (σ.extend i vars).chain k = σ.chain k := fun k hk =>
    Scopes.chain_extend_of_lt (by omega)
  rcases h with ⟨henc, hchain⟩ | ⟨k, g', hk, hg', henc, hchain⟩
  · exact Or.inl ⟨henc, by rw [hchain' j (Nat.le_refl j), hchain]⟩
  · refine Or.inr ⟨k, g', hk, ?_, henc, ?_⟩
    · rw [List.getElem?_append_left (by omega), hg']
    · rw [hchain' j (Nat.le_refl j), hchain' k hk.le, hchain]

/-- **Extending an environment** is making a scope inside its scope. -/
theorem Represents.extend (h : Represents m fs σ) (hf : fs[i]? = some f) {t : SchemeType}
    (ht : t ≠ .pair) {tail rest : Ptr} {bs : List Binding} {vars vals : Ptr}
    (htail : m.heap.type? tail = some t) (hvars : m.heap.Spine vars (bs.map Binding.var) tail)
    (hvals : m.heap.Spine vals (bs.map Binding.val) rest) :
    ∃ m', Ends (fun n => schemeExtendEnv n vars vals f.env) m m.fresh m' ∧ Grown m m' ∧
      Represents m' (fs ++ [Frame.extension m (bs ++ restSlot t tail rest) f.env])
        (σ.extend i (findBinding (bs ++ restSlot t tail rest))) := by
  obtain ⟨m', hends, hin, hgrown⟩ := schemeExtendEnv_ends f.env ht htail hvars hvals
  have hi := (List.getElem?_eq_some_iff.mp hf).1
  have hget : ∀ j g, (fs ++ [Frame.extension m (bs ++ restSlot t tail rest) f.env])[j]? = some g →
      j < fs.length ∧ fs[j]? = some g ∨
        j = σ.size ∧ g = Frame.extension m (bs ++ restSlot t tail rest) f.env := by
    intro j g hg
    rw [List.getElem?_append] at hg
    split_ifs at hg with hj
    · exact Or.inl ⟨hj, hg⟩
    · obtain ⟨hlt, rfl⟩ := List.getElem?_eq_some_iff.mp hg
      rw [List.length_singleton] at hlt
      exact Or.inr ⟨by rw [h.size]; omega, by simp⟩
  refine ⟨m', hends, hgrown, fun g hg => ?_, ?_, fun g hg => ?_, ?_, fun j g hg x => ?_,
    fun j g hg => ?_⟩
  · rcases List.mem_append.mp hg with hg | hg
    · exact hgrown.keeps (h.lies g hg)
    · rw [List.mem_singleton.mp hg]
      exact hin
  · rw [List.pairwise_append]
    refine ⟨h.apart, List.pairwise_singleton _ _, fun g hg g' hg' => ?_⟩
    rw [List.mem_singleton.mp hg']
    have hlies := h.lies g hg
    exact ⟨env?_ne_fresh hlies.env, hlies.record_lt.ne, hlies.block_lt.ne⟩
  · rcases List.mem_append.mp hg with hg | hg
    · exact h.notNull g hg
    · rw [List.mem_singleton.mp hg]
      exact fresh_ne_null (h.lies f (List.mem_of_getElem? hf)).env
  · rw [Scopes.size_extend, h.size, List.length_append, List.length_singleton]
  · rcases hget j g hg with ⟨hj, hg⟩ | ⟨rfl, rfl⟩
    · rw [Scopes.here_extend_of_lt (by rw [h.size]; exact hj), h.here j g hg]
    · rw [Scopes.here_extend_new]
      rfl
  · rcases hget j g hg with ⟨hj, hg⟩ | ⟨rfl, rfl⟩
    · exact (h.enclosed j g hg).snoc h.size hj
    · refine Or.inr ⟨i, f, by rw [h.size]; exact hi, ?_, rfl, ?_⟩
      · rw [List.getElem?_append_left hi, hf]
      · rw [Scopes.chain_extend_new, Scopes.chain_extend_of_lt (by rw [h.size]; exact hi)]

end SchemeOs
