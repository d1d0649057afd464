import SchemeOs.Interpreter.Environments

/-!
# Interpreter/EnvironmentRuns — any sequence of operations on environments

A state is a memory with the environments made so far, the global one first.  Between the operations
on environments the rest of the interpreter may do what it likes with all other objects.
-/

namespace SchemeOs

variable {m m' : Memory} {fs : List Frame} {σ : Scopes Ptr Ptr} {i : ℕ}

/-! ## Runs

A client may create, extend and change environments in any order, and keep them all. -/

/-- An operation: extend the environment number `i` by the bindings `bs`, define a name in it, or do
something that does not concern environments. -/
inductive EnvOp where
  | extend (bs : List Binding) (i : ℕ)
  | define (x v : Ptr) (i : ℕ)
  | other

/-- The memory and the environments in it. -/
structure EnvSys where
  mem : Memory
  envs : List Ptr

/-- What an operation does.  An extension is given a list of parameters, perhaps with a last one for
the rest, and at least as many values. -/
inductive EnvStep : EnvSys → EnvOp → EnvSys → Prop where
  | extend {s : EnvSys} {m' : Memory} {i : ℕ} {base vars vals tail rest e : Ptr} {t : SchemeType}
      {bs : List Binding} (henv : s.envs[i]? = some base) (ht : t ≠ .pair)
      (htail : s.mem.heap.type? tail = some t)
      (hvars : s.mem.heap.Spine vars (bs.map Binding.var) tail)
      (hvals : s.mem.heap.Spine vals (bs.map Binding.val) rest)
      (hends : Ends (fun n => schemeExtendEnv n vars vals base) s.mem e m') :
      EnvStep s (.extend (bs ++ restSlot t tail rest) i) ⟨m', s.envs ++ [e]⟩
  | define {s : EnvSys} {m' : Memory} {i : ℕ} {x v e r : Ptr} (henv : s.envs[i]? = some e)
      (hrun : (schemeDefineVar x v e).run s.mem = some (r, m')) :
      EnvStep s (.define x v i) ⟨m', s.envs⟩
  | other {s : EnvSys} {m' : Memory} (hbindings : m'.bindings = s.mem.bindings)
      (hblocks : m'.blocks = s.mem.blocks) (henvs : ∀ e ∈ s.envs, m'.env? e = s.mem.env? e) :
      EnvStep s .other ⟨m', s.envs⟩

/-- The memory that `schemeInitEnv` leaves, with the global environment in it. -/
def EnvSys.init : EnvSys where
  mem := ((schemeInitEnv.run Memory.init).map Prod.snd).getD Memory.init
  envs := [schemeGlobalEnvironment]

/-- What an operation does to the chains of finite maps. -/
def EnvOp.apply (σ : Scopes Ptr Ptr) : EnvOp → Scopes Ptr Ptr
  | .extend bs i => σ.extend i (findBinding bs)
  | .define x v i => σ.define i x v
  | .other => σ

/-- The chains of finite maps after the operations `ops`, from one empty map on. -/
def scopesAfter (ops : List EnvOp) : Scopes Ptr Ptr :=
  ops.foldl EnvOp.apply ⟨[⟨fun _ => none, []⟩]⟩

/-- The parameters of the environment that an operation makes. -/
def EnvOp.params? : EnvOp → Option (List Ptr)
  | .extend bs _ => some (bs.map Binding.var)
  | _ => none

/-- The parameters of the global environment and of those made by the operations. -/
def paramsAfter (ops : List EnvOp) : List (List Ptr) := [] :: ops.filterMap EnvOp.params?

/-! ## The slots of an environment -/

/-- The slots in use of the environment `e`, as they stand in its block. -/
def Memory.slots? (m : Memory) (e : Ptr) : Option (List Binding) := do
  let (r, _) ← m.env? e
  let b ← m.bindings[r]?
  let slots ← m.block? b.binds
  (slots.take b.bindCnt).mapM id

/-- The slots in use of a block are those before the rest. -/
theorem mapM_take_slots (slots : List Binding) (rest : List (Option Binding)) :
    ((slots.map some ++ rest).take slots.length).mapM id = some slots := by
  rw [← List.length_map (f := some), List.take_left]
  induction slots with
  | nil => rfl
  | cons s slots ih => rw [List.map_cons, List.mapM_cons, ih]; rfl

theorem slots?_of_in {f : Frame} (h : f.In m) : m.slots? f.env = some f.slots := by
  obtain ⟨rest, hblock, -⟩ := h.block
  simp only [Memory.slots?, h.env, h.record, hblock, Option.bind_eq_bind, Option.bind_some,
    mapM_take_slots]

/-! ## The invariant

Each environment of the memory has a frame: its names, with their values.  Different ones are
apart. -/

/-- The environments are the scopes `σ`, and `params` are the parameters they were made with. -/
def EnvInv (s : EnvSys) (σ : Scopes Ptr Ptr) (params : List (List Ptr)) : Prop :=
  ∃ fs, Represents s.mem fs σ ∧ s.envs = fs.map Frame.env ∧ params = fs.map Frame.params

theorem envInv_init : EnvInv EnvSys.init (scopesAfter []) (paramsAfter []) := by
  refine ⟨[⟨schemeGlobalEnvironment, 0, 0, 128, [], [], schemeNull, ⟨[], by simp⟩⟩], ?_, rfl, rfl⟩
  constructor
  · intro f hf
    rw [List.mem_singleton.mp hf]
    exact ⟨rfl, rfl, List.replicate 128 none, by decide +kernel, by decide +kernel⟩
  · exact List.pairwise_singleton _ _
  · intro f hf
    rw [List.mem_singleton.mp hf]
    decide
  · rfl
  · rintro (_ | i) f hf x
    · obtain rfl := Option.some.inj hf
      rfl
    · simp at hf
  · rintro (_ | i) f hf
    · obtain rfl := Option.some.inj hf
      exact Or.inl ⟨rfl, rfl⟩
    · simp at hf

/-- What touches no environment leaves the frames as they were. -/
theorem Represents.kept (h : Represents m fs σ) (hbindings : m'.bindings = m.bindings)
    (hblocks : m'.blocks = m.blocks) (henvs : ∀ f ∈ fs, m'.env? f.env = m.env? f.env) :
    Represents m' fs σ := by
  refine ⟨fun f hf => ?_, h.apart, h.notNull, h.size, h.here, h.enclosed⟩
  exact (h.lies f hf).congr (henvs f hf) (by rw [hbindings])
    (by rw [Memory.block?, hblocks, Memory.block?])

theorem exists_frame {s : EnvSys} {e : Ptr} (henvs : s.envs = fs.map Frame.env)
    (he : s.envs[i]? = some e) : ∃ f, fs[i]? = some f ∧ f.env = e := by
  rw [henvs, List.getElem?_map] at he
  exact Option.map_eq_some_iff.mp he

/-- **Every operation keeps the environments the scopes that it makes of them.** -/
theorem envStep_inv {s s' : EnvSys} {op : EnvOp} {params : List (List Ptr)} (h : EnvInv s σ params)
    (hstep : EnvStep s op s') : EnvInv s' (op.apply σ) (params ++ op.params?.toList) := by
  obtain ⟨fs, hrep, henvs, rfl⟩ := h
  cases hstep with
  | extend henv ht htail hvars hvals hends =>
    obtain ⟨f, hf, rfl⟩ := exists_frame henvs henv
    obtain ⟨m', hends', -, hrep'⟩ := hrep.extend hf ht htail hvars hvals
    obtain ⟨rfl, rfl⟩ := hends.unique hends'
    exact ⟨_, hrep', by rw [henvs, List.map_append]; rfl, by rw [List.map_append]; rfl⟩
  | define henv hrun =>
    obtain ⟨f, hf, rfl⟩ := exists_frame henvs henv
    obtain ⟨m', hrun', -, hrep'⟩ := hrep.define hf _ _
    obtain ⟨-, rfl⟩ := Prod.ext_iff.mp (Option.some.inj (hrun.symm.trans hrun'))
    refine ⟨_, hrep', ?_, ?_⟩
    · rw [map_set_of_eq hf (Frame.env_define ..), henvs]
    · rw [map_set_of_eq hf (Frame.params_define ..)]
      exact List.append_nil _
  | other hbindings hblocks henvs' =>
    refine ⟨fs, hrep.kept hbindings hblocks fun f hf => henvs' f.env ?_, henvs, List.append_nil _⟩
    rw [henvs]
    exact List.mem_map_of_mem hf

/-- Every sequence of operations keeps the environments the scopes that it makes of them. -/
theorem envRuns_inv {s t : EnvSys} {ops : List EnvOp} {params : List (List Ptr)}
    (hruns : Runs EnvStep s ops t) (h : EnvInv s σ params) :
    EnvInv t (ops.foldl EnvOp.apply σ) (params ++ ops.filterMap EnvOp.params?) := by
  induction hruns generalizing σ params with
  | nil s => simpa using h
  | @cons _ _ _ op ops hs _ ih =>
    have := ih (envStep_inv h hs)
    rw [List.append_assoc] at this
    cases hop : op.params? <;> simpa [hop] using this

/-! ## What the environments do -/

/-- The environments of a state behave as the chains of finite maps `σ`, whatever is done next. -/
structure EnvSys.Behaves (s : EnvSys) (σ : Scopes Ptr Ptr) (params : List (List Ptr)) : Prop where
  /-- A lookup finds what the chain holds, `schemeVoid` when it holds nothing. -/
  lookup : ∀ (i : ℕ) (e x : Ptr), s.envs[i]? = some e →
    Ends (fun n => schemeLookupVar n x e) s.mem ((σ.lookup i x).getD schemeVoid) s.mem
  /-- A frame binds its parameters and then distinct names that are not among them. -/
  names : ∀ (i : ℕ) (e : Ptr), s.envs[i]? = some e → ∃ slots ps, s.mem.slots? e = some slots ∧
    params[i]? = some ps ∧ Named ps (slots.map Binding.var)
  /-- A definition changes the value of one name in one frame, and adds the name if it is new. -/
  define : ∀ e ∈ s.envs, ∀ x v, ∃ m' slots slots',
    (schemeDefineVar x v e).run s.mem = some (x, m') ∧ s.mem.slots? e = some slots ∧
    m'.slots? e = some slots' ∧
    (∀ y, findBinding slots' y = if y = x then some v else findBinding slots y) ∧
    slots'.map Binding.var = (if x ∈ slots.map Binding.var then slots.map Binding.var
      else slots.map Binding.var ++ [x]) ∧
    ∀ e' ∈ s.envs, e' ≠ e → m'.slots? e' = s.mem.slots? e'
  /-- An extension makes a new frame of the parameters and values and changes no other. -/
  extend : ∀ base ∈ s.envs, ∀ (vars vals tail rest : Ptr) (t : SchemeType) (bs : List Binding),
    t ≠ .pair → s.mem.heap.type? tail = some t → s.mem.heap.Spine vars (bs.map Binding.var) tail →
    s.mem.heap.Spine vals (bs.map Binding.val) rest →
    ∃ e m', Ends (fun n => schemeExtendEnv n vars vals base) s.mem e m' ∧ e ∉ s.envs ∧
      m'.slots? e = some (bs ++ restSlot t tail rest) ∧
      ∀ e' ∈ s.envs, m'.slots? e' = s.mem.slots? e'

theorem EnvInv.behaves {s : EnvSys} {params : List (List Ptr)} (h : EnvInv s σ params) :
    s.Behaves σ params := by
  obtain ⟨fs, hrep, henvs, rfl⟩ := h
  have hframe : ∀ e ∈ s.envs, ∃ (i : ℕ) (f : Frame), fs[i]? = some f ∧ f.env = e :=
      fun e he => by
    obtain ⟨i, hi⟩ := List.mem_iff_getElem?.mp he
    exact ⟨i, exists_frame henvs hi⟩
  constructor
  · intro i e x he
    obtain ⟨f, hf, rfl⟩ := exists_frame henvs he
    exact hrep.lookup hf x
  · intro i e he
    obtain ⟨f, hf, rfl⟩ := exists_frame henvs he
    refine ⟨f.slots, f.params, slots?_of_in (hrep.lies f (List.mem_of_getElem? hf)), ?_, f.named⟩
    rw [List.getElem?_map, hf, Option.map_some]
  · intro e he x v
    obtain ⟨i, f, hf, rfl⟩ := hframe e he
    have hlies := hrep.lies f (List.mem_of_getElem? hf)
    obtain ⟨m', hrun, hin, hsame⟩ := schemeDefineVar_spec hlies (x := x) (v := v)
    have hslots' := slots?_of_in hin
    refine ⟨m', f.slots, setBinding f.slots x v, hrun, slots?_of_in hlies, hslots',
      fun y => findBinding_setBinding, map_var_setBinding .., fun e' he' hne => ?_⟩
    obtain ⟨j, g, hg, rfl⟩ := hframe e' he'
    have hgl := hrep.lies g (List.mem_of_getElem? hg)
    have hij : i ≠ j := by
      rintro rfl
      exact hne (by rw [Option.some.inj (hg.symm.trans hf)])
    rw [slots?_of_in hgl, slots?_of_in (hsame.keeps hgl (hrep.apart_of_ne hf hg hij))]
  · intro base hbase vars vals tail rest t bs ht htail hvars hvals
    obtain ⟨i, f, hf, rfl⟩ := hframe base hbase
    obtain ⟨m', hends, hin, hgrown⟩ := schemeExtendEnv_ends f.env ht htail hvars hvals
    refine ⟨_, m', hends, fun hmem => ?_, slots?_of_in hin, fun e' he' => ?_⟩
    · obtain ⟨j, g, hg, henv⟩ := hframe _ hmem
      exact env?_ne_fresh (hrep.lies g (List.mem_of_getElem? hg)).env henv
    · obtain ⟨j, g, hg, rfl⟩ := hframe e' he'
      have hgl := hrep.lies g (List.mem_of_getElem? hg)
      rw [slots?_of_in hgl, slots?_of_in (hgrown.keeps hgl)]

/-- **Environments behave as chains of finite maps** after any sequence of operations. -/
theorem environments_behave {s : EnvSys} {ops : List EnvOp} (h : Runs EnvStep EnvSys.init ops s) :
    s.Behaves (scopesAfter ops) (paramsAfter ops) :=
  (envRuns_inv h envInv_init).behaves

/-- The global environment, with a symbol and an integer at hand. -/
def EnvSys.sample : EnvSys where
  mem := (EnvSys.init.mem.push ⟨.symbol, .symbol ['x']⟩).push ⟨.integer, .int 5⟩
  envs := EnvSys.init.envs

theorem environments_behave_define :
    ∃ m', (schemeDefineVar (.obj 6) (.obj 7) schemeGlobalEnvironment).run EnvSys.sample.mem =
        some (.obj 6, m') ∧
      EnvSys.Behaves ⟨m', EnvSys.sample.envs⟩ (scopesAfter [.other, .define (.obj 6) (.obj 7) 0])
        (paramsAfter [.other, .define (.obj 6) (.obj 7) 0]) := by
  obtain ⟨m', hrun⟩ : ∃ m', (schemeDefineVar (.obj 6) (.obj 7) schemeGlobalEnvironment).run
      EnvSys.sample.mem = some (.obj 6, m') :=
    ⟨_, (by decide +kernel : (schemeDefineVar (.obj 6) (.obj 7) schemeGlobalEnvironment).run
      EnvSys.sample.mem = some (.obj 6, { EnvSys.sample.mem with
        bindings := [⟨1, 128, 0⟩]
        blocks := [some (some ⟨.obj 6, .obj 7⟩ :: List.replicate 127 none)] }))⟩
  have hother : EnvStep EnvSys.init .other EnvSys.sample := EnvStep.other rfl rfl (by decide)
  have hdefine : EnvStep EnvSys.sample (.define (.obj 6) (.obj 7) 0) ⟨m', EnvSys.sample.envs⟩ :=
    EnvStep.define rfl hrun
  exact ⟨m', hrun, environments_behave (Runs.cons hother (Runs.single hdefine))⟩

end SchemeOs
