import SchemeOs.Interpreter.Environments
import SchemeOs.Interpreter.Growth
import SchemeOs.Interpreter.Nodes

/-!
# Interpreter/Stores — environments in memory as stores of values

`ValueAt H envs p v` says that `p` is the value `v`: a constant is its own pointer, and a closure is
an object whose body stands for the body of `v` and whose environment is the one of that number.
`Stores m H envs σ` says that the environments `envs` are the scopes of `σ`, value by value.
-/

namespace SchemeOs

variable {m m' : Memory} {H H' : Heap} {envs envs' : List Ptr} {σ : Scopes Ptr SValue} {i : ℕ}
  {p q ep x : Ptr} {v : SValue}

/-- `p` is the value `v`, as far as the objects of `H` tell. -/
def ValueAt (H : Heap) (envs : List Ptr) (p : Ptr) : SValue → Prop
  | .const c => p = c
  | .closure xs body i => H.type? p = some .cpdProc ∧ ∃ vars b e,
      H.cpdProc? p = some (vars, b, e) ∧ envs[i]? = some e ∧ H.Spine vars xs schemeNull ∧
      body ≠ [] ∧ Nodes H b body

theorem ValueAt.mono (h : ValueAt H envs p v) (hsub : H.Sub H') (henvs : envs <+: envs') :
    ValueAt H' envs' p v := by
  cases v with
  | const c => exact h
  | closure xs body i =>
    obtain ⟨ht, vars, b, e, hproc, he, hvars, hne, hb⟩ := h
    obtain ⟨more, rfl⟩ := henvs
    refine ⟨hsub.type? ht, vars, b, e, hsub.cpdProc? hproc, ?_, hvars.sub hsub, hne,
      Nodes.sub hsub hb⟩
    rw [List.getElem?_append_left (List.getElem?_eq_some_iff.mp he).1, he]

/-- The environments are the scopes of `σ`, value by value. -/
def Stores (m : Memory) (H : Heap) (envs : List Ptr) (σ : Scopes Ptr SValue) : Prop :=
  ∃ fs τ, Represents m fs τ ∧ envs = fs.map Frame.env ∧ σ.size = τ.size ∧
    (∀ j, σ.chain j = τ.chain j) ∧ ∀ j x, Option.Rel (ValueAt H envs) (τ.here j x) (σ.here j x)

theorem rel_mono {R S : Ptr → SValue → Prop} (hRS : ∀ p v, R p v → S p v) {a : Option Ptr}
    {b : Option SValue} (h : Option.Rel R a b) : Option.Rel S a b := by
  cases h with
  | none => exact Option.Rel.none
  | some h => exact Option.Rel.some (hRS _ _ h)

/-- Frames stay where they are while no environment changes. -/
theorem Represents.keep {fs : List Frame} {τ : Scopes Ptr Ptr} (h : Represents m fs τ)
    (henv : ∀ f ∈ fs, m'.env? f.env = m.env? f.env) (hbindings : m'.bindings = m.bindings)
    (hblocks : m'.blocks = m.blocks) : Represents m' fs τ where
  lies f hf := (h.lies f hf).congr (henv f hf) (by rw [hbindings])
    (by rw [Memory.block?, hblocks, Memory.block?])
  apart := h.apart
  notNull := h.notNull
  size := h.size
  here := h.here
  enclosed := h.enclosed

theorem Represents.keep_of_sub {fs : List Frame} {τ : Scopes Ptr Ptr} (h : Represents m fs τ)
    (hsub : m.heap.Sub m'.heap) (hbindings : m'.bindings = m.bindings)
    (hblocks : m'.blocks = m.blocks) : Represents m' fs τ :=
  h.keep (fun f hf => by
    have hlies := (h.lies f hf).env
    rw [hlies, env?_of_sub hsub hlies]) hbindings hblocks

namespace Stores

/-- A store is untouched by growing memory. -/
theorem grow (h : Stores m H envs σ) (hheap : m.heap.Sub m'.heap) (hsub : H.Sub H')
    (hbindings : m'.bindings = m.bindings) (hblocks : m'.blocks = m.blocks) :
    Stores m' H' envs σ := by
  obtain ⟨fs, τ, hrep, henvs, hsize, hchain, hhere⟩ := h
  exact ⟨fs, τ, hrep.keep_of_sub hheap hbindings hblocks, henvs, hsize, hchain, fun j x =>
    rel_mono (fun p v hv => hv.mono hsub (List.prefix_refl _)) (hhere j x)⟩

/-- A store is untouched by a change to a pair that does not belong to the part. -/
theorem modify (h : Stores m H envs σ) {t : SchemeType} {c u : Ptr} {f : Obj → Obj}
    (hq : m.heap.obj? q = some ⟨t, .pair c u⟩) : Stores (m.modify q f) H envs σ := by
  obtain ⟨fs, τ, hrep, hrest⟩ := h
  refine ⟨fs, τ, hrep.keep (fun g hg => ?_) Memory.bindings_modify Memory.blocks_modify, hrest⟩
  have hlies := (hrep.lies g hg).env
  have hne : g.env ≠ q := by
    rintro heq
    rw [heq, Memory.env?, hq] at hlies
    simp at hlies
  rw [Memory.env?, Memory.obj?_modify_of_ne hne, Memory.env?]

/-- A bound name is looked up. -/
theorem lookup (h : Stores m H envs σ) (hep : envs[i]? = some ep) (hv : σ.lookup i x = some v) :
    ∃ q, Ends (fun n => schemeLookupVar n x ep) m q m ∧ ValueAt H envs q v := by
  obtain ⟨fs, τ, hrep, rfl, hsize, hchain, hhere⟩ := h
  rw [List.getElem?_map] at hep
  obtain ⟨f, hf, rfl⟩ := Option.map_eq_some_iff.mp hep
  have hrel := Scopes.lookup_rel (hchain i) fun j => hhere j x
  rw [hv] at hrel
  have hends := hrep.lookup hf x
  generalize hp : τ.lookup i x = o at hrel hends
  cases hrel with
  | some hq => exact ⟨_, hends, hq⟩

/-- A definition binds the value in the scope. -/
theorem define (h : Stores m H envs σ) (hep : envs[i]? = some ep) (hp : ValueAt H envs p v) :
    ∃ m', (schemeDefineVar x p ep).run m = some (x, m') ∧ m'.objs = m.objs ∧
      Stores m' H envs (σ.define i x v) := by
  obtain ⟨fs, τ, hrep, rfl, hsize, hchain, hhere⟩ := h
  rw [List.getElem?_map] at hep
  obtain ⟨f, hf, rfl⟩ := Option.map_eq_some_iff.mp hep
  obtain ⟨m', hrun, hobjs, hrep'⟩ := hrep.define hf x p
  have hi : i < τ.size := by
    rw [hrep.size]
    exact (List.getElem?_eq_some_iff.mp hf).1
  refine ⟨m', hrun, hobjs, _, _, hrep', ?_, by simp [hsize], fun j => by simp [hchain], ?_⟩
  · rw [map_set_of_eq hf (Frame.env_define ..)]
  · intro j y
    rw [Scopes.here_define hi, Scopes.here_define (hsize ▸ hi)]
    split_ifs
    · exact Option.Rel.some hp
    · exact hhere j y

/-- The slots that bind the names to the values. -/
def zipBindings (xs ps : List Ptr) : List Binding := (xs.zip ps).map fun s => ⟨s.1, s.2⟩

theorem map_var_zipBindings {xs ps : List Ptr} (h : ps.length = xs.length) :
    (zipBindings xs ps).map Binding.var = xs := by
  rw [zipBindings, List.map_map]
  exact List.map_fst_zip h.ge

theorem map_val_zipBindings {xs ps : List Ptr} (h : ps.length = xs.length) :
    (zipBindings xs ps).map Binding.val = ps := by
  rw [zipBindings, List.map_map]
  exact List.map_snd_zip h.le

theorem rel_bindParams {xs ps : List Ptr} {vs : List SValue}
    (hps : List.Forall₂ (ValueAt H envs) ps vs) (y : Ptr) :
    Option.Rel (ValueAt H envs) (findBinding (zipBindings xs ps) y)
      (bindParams xs vs y) := by
  induction hps generalizing xs with
  | nil => cases xs <;> exact Option.Rel.none
  | cons hp _ ih =>
    cases xs with
    | nil => exact Option.Rel.none
    | cons x xs =>
      by_cases hxy : x = y
      · simpa [zipBindings, findBinding, bindParams, hxy] using Option.Rel.some hp
      · simpa [zipBindings, findBinding, bindParams, hxy] using ih

/-- An extension makes the scope of a call. -/
theorem extend (h : Stores m H envs σ) (hH : H.Sub m.heap) (hc : Constants H)
    (hep : envs[i]? = some ep) {vars args : Ptr} {xs ps : List Ptr} {vs : List SValue}
    (hvars : H.Spine vars xs schemeNull) (hargs : H.Spine args ps schemeNull)
    (hps : List.Forall₂ (ValueAt H envs) ps vs) (hlen : vs.length = xs.length) :
    ∃ m', Ends (fun n => schemeExtendEnv n vars args ep) m m.fresh m' ∧ m.heap.Sub m'.heap ∧
      Stores m' H (envs ++ [m.fresh]) (σ.extend i (bindParams xs vs)) := by
  obtain ⟨fs, τ, hrep, rfl, hsize, hchain, hhere⟩ := h
  rw [List.getElem?_map] at hep
  obtain ⟨f, hf, rfl⟩ := Option.map_eq_some_iff.mp hep
  obtain ⟨t, hnull, ht⟩ := hc.null
  have hpair : t ≠ .pair := by rintro rfl; rcases ht with ht | ht <;> exact absurd ht (by decide)
  have hsym : t ≠ .symbol := by rintro rfl; rcases ht with ht | ht <;> exact absurd ht (by decide)
  have hlens : ps.length = xs.length := hps.length_eq.trans hlen
  obtain ⟨m', hends, hgrown, hrep'⟩ := hrep.extend hf hpair
    (hH.type? (Heap.type?_of_obj? hnull)) ((map_var_zipBindings hlens).symm ▸ hvars.sub hH)
    ((map_val_zipBindings hlens).symm ▸ hargs.sub hH)
  rw [restSlot, if_neg hsym, List.append_nil] at hrep'
  have hi : i < τ.size := by
    rw [hrep.size]
    exact (List.getElem?_eq_some_iff.mp hf).1
  refine ⟨m', hends, hgrown.objs, _, _, hrep', by rw [List.map_append]; rfl, by simp [hsize],
    fun j => ?_, fun j y => ?_⟩
  · rw [Scopes.chain_extend, Scopes.chain_extend, hsize, hchain i, hchain j]
  · rw [Scopes.here_extend, Scopes.here_extend, hsize]
    split_ifs
    · exact rel_mono (fun p v hv => hv.mono Heap.Sub.refl (List.prefix_append _ _))
        (rel_bindParams hps y)
    · exact rel_mono (fun p v hv => hv.mono Heap.Sub.refl (List.prefix_append _ _)) (hhere j y)

end Stores

end SchemeOs
