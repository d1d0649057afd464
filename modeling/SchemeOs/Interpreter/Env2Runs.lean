import SchemeOs.Interpreter.Assignment
import SchemeOs.Interpreter.Env2Ops
import SchemeOs.Machinery.Service

/-!
# Interpreter/Env2Runs — the environments with and without `USE_ENV2`

Both implementations answer calls as chains of scopes do whose bindings are kept in slots.  So after
the same calls they have returned the same values, and their environments hold the same bindings.
-/

namespace SchemeOs

/-! ## The environments as a service

What a client sees of environments: calls, and the names and values that each environment then has.
-/

/-- A call of one of the four functions, in the environment number `i`. -/
inductive EnvCall where
  | extend (bs : List Binding) (i : ℕ)
  | define (x v : Ptr) (i : ℕ)
  | set (x v : Ptr) (i : ℕ)
  | lookup (x : Ptr) (i : ℕ)
  deriving DecidableEq, Repr

/-- Scopes, and the slots with what each of them binds. -/
structure EnvSpec where
  scopes : Scopes Ptr Ptr
  slots : List (List Binding)
  size : scopes.size = slots.length
  here : ∀ i x, scopes.here i x = (slots[i]?).bind fun bs => findBinding bs x

namespace EnvSpec

/-- The global environment without bindings. -/
def init : EnvSpec where
  scopes := ⟨[⟨fun _ => none, []⟩]⟩
  slots := [[]]
  size := rfl
  here := by rintro (_ | i) x <;> rfl

def bind (A : EnvSpec) (i : ℕ) (x v : Ptr) : EnvSpec where
  scopes := A.scopes.define i x v
  slots := A.slots.modify i (setBinding · x v)
  size := by rw [Scopes.size_define, List.length_modify, A.size]
  here := by
    intro j y
    rw [List.getElem?_modify]
    by_cases hi : i < A.scopes.size
    · rw [Scopes.here_define hi, A.here]
      rw [A.size] at hi
      by_cases hij : i = j
      · subst hij
        rw [List.getElem?_eq_getElem hi]
        simp [findBinding_setBinding]
      · simp [hij, Ne.symm hij]
    · rw [Scopes.define, List.modify_eq_self (Nat.le_of_not_lt hi)]
      rw [A.size] at hi
      refine (A.here j y).trans ?_
      by_cases hij : i = j
      · subst hij
        simp [List.getElem?_eq_none (Nat.le_of_not_lt hi)]
      · simp [hij]

def extend (A : EnvSpec) (bs : List Binding) (i : ℕ) : EnvSpec where
  scopes := A.scopes.extend i (findBinding bs)
  slots := A.slots ++ [bs]
  size := by rw [Scopes.size_extend, List.length_append, List.length_singleton, A.size]
  here := by
    intro j y
    rw [Scopes.here_extend, A.here, A.size]
    split_ifs with hj
    · simp [hj]
    · rcases Nat.lt_or_gt_of_ne hj with hlt | hlt
      · rw [List.getElem?_append_left hlt]
      · rw [List.getElem?_eq_none hlt.le, List.getElem?_eq_none]
        rw [List.length_append, List.length_singleton]
        exact hlt

theorem length_extend (A : EnvSpec) (bs : List Binding) (i : ℕ) :
    (A.extend bs i).slots.length = A.slots.length + 1 := List.length_append

end EnvSpec

/-- What the calls return; an extension makes the environment with the next number. -/
def envService : Service EnvSpec EnvCall (Option Ptr) where
  answer A
    | .extend _ _ => none
    | .define x _ _ => some x
    | .set x _ i => some ((A.scopes.here i x).getD schemeVoid)
    | .lookup x i => some ((A.scopes.lookup i x).getD schemeVoid)
  next A
    | .extend bs i => A.extend bs i
    | .define x v i => A.bind i x v
    | .set x v i => if (A.scopes.here i x).isSome then A.bind i x v else A
    | .lookup _ _ => A

/-- A list of parameters, perhaps with a last one for the rest, and one of at least as many values:
together they are the bindings `bs`. -/
def Heap.Binds (H : Heap) (vars vals : Ptr) (bs : List Binding) : Prop :=
  ∃ t tail rest ps, t ≠ .pair ∧ H.type? tail = some t ∧ H.Spine vars (ps.map Binding.var) tail ∧
    H.Spine vals (ps.map Binding.val) rest ∧ bs = ps ++ restSlot t tail rest

/-! ## The default implementation

The memory of `env.c` implements the service. -/

namespace EnvSys

/-- The rest of the interpreter may change whatever is no environment. -/
structure Kept (s : EnvSys) (m : Memory) : Prop where
  bindings : m.bindings = s.mem.bindings
  blocks : m.blocks = s.mem.blocks
  envs : ∀ e ∈ s.envs, m.env? e = s.mem.env? e

/-- A call with its result. -/
inductive Called (s : EnvSys) : EnvCall × Option Ptr → EnvSys → Prop where
  | extend {m' : Memory} {i : ℕ} {base vars vals e : Ptr} {bs : List Binding}
      (henv : s.envs[i]? = some base) (hbinds : s.mem.heap.Binds vars vals bs)
      (hends : Ends (fun n => schemeExtendEnv n vars vals base) s.mem e m') :
      Called s (.extend bs i, none) ⟨m', s.envs ++ [e]⟩
  | define {m' : Memory} {i : ℕ} {x v e r : Ptr} (henv : s.envs[i]? = some e)
      (hrun : (schemeDefineVar x v e).run s.mem = some (r, m')) :
      Called s (.define x v i, some r) ⟨m', s.envs⟩
  | set {m' : Memory} {i : ℕ} {x v e r : Ptr} (henv : s.envs[i]? = some e)
      (hrun : (schemeSetVar x v e).run s.mem = some (r, m')) :
      Called s (.set x v i, some r) ⟨m', s.envs⟩
  | lookup {m' : Memory} {i : ℕ} {x e r : Ptr} (henv : s.envs[i]? = some e)
      (hends : Ends (fun n => schemeLookupVar n x e) s.mem r m') :
      Called s (.lookup x i, some r) ⟨m', s.envs⟩

/-- The rest of the interpreter runs, and then a call is made. -/
def Answers (s : EnvSys) (l : EnvCall × Option Ptr) (s' : EnvSys) : Prop :=
  ∃ m, s.Kept m ∧ Called ⟨m, s.envs⟩ l s'

/-- The environment of the call is there, and the lists of an extension are. -/
def Ready (s : EnvSys) : EnvCall → Prop
  | .extend bs i => i < s.envs.length ∧ ∃ vars vals, s.mem.heap.Binds vars vals bs
  | .define _ _ i => i < s.envs.length
  | .set _ _ i => i < s.envs.length
  | .lookup _ i => i < s.envs.length

/-- The environments are frames with the slots of the service. -/
def Models (s : EnvSys) (A : EnvSpec) : Prop :=
  ∃ fs, Represents s.mem fs A.scopes ∧ s.envs = fs.map Frame.env ∧ A.slots = fs.map Frame.slots

end EnvSys

section Default

variable {s s' : EnvSys} {A : EnvSpec} {fs : List Frame} {f f' : Frame} {i : ℕ} {c : EnvCall}
  {r : Option Ptr} {x v : Ptr}

theorem models_init : EnvSys.init.Models EnvSpec.init := by
  obtain ⟨fs, hrep, henvs, -⟩ := envInv_init
  obtain ⟨f, rfl⟩ : ∃ f, fs = [f] := by
    refine List.length_eq_one_iff.mp ?_
    rw [← List.length_map (f := Frame.env), ← henvs]
    rfl
  have henv : schemeGlobalEnvironment = f.env := (List.cons.inj henvs).1
  have hslots := slots?_of_in (hrep.lies f List.mem_cons_self)
  rw [← henv, (by decide +kernel : EnvSys.init.mem.slots? schemeGlobalEnvironment = some []),
    Option.some.injEq] at hslots
  exact ⟨[f], hrep, henvs, congrArg (fun bs => [bs]) hslots⟩

theorem map_slots_set (hf : fs[i]? = some f) {g : List Binding → List Binding}
    (h : f'.slots = g f.slots) :
    (fs.set i f').map Frame.slots = (fs.map Frame.slots).modify i g := by
  refine List.ext_getElem? fun j => ?_
  rw [List.getElem?_map, List.getElem?_set, List.getElem?_modify, List.getElem?_map]
  by_cases hij : i = j
  · subst hij
    obtain ⟨hi, rfl⟩ := List.getElem?_eq_some_iff.mp hf
    simp [hi, h]
  · simp [hij]

theorem EnvSys.Models.kept {m : Memory} (h : s.Models A) (hk : s.Kept m) :
    EnvSys.Models ⟨m, s.envs⟩ A := by
  obtain ⟨fs, hrep, henvs, hslots⟩ := h
  refine ⟨fs, hrep.kept hk.bindings hk.blocks fun f hf => hk.envs f.env ?_, henvs, hslots⟩
  rw [henvs]
  exact List.mem_map_of_mem hf

/-- Extending an environment makes one more scope. -/
theorem EnvSys.Models.extend (h : s.Models A) {base vars vals : Ptr} {bs : List Binding}
    (henv : s.envs[i]? = some base) (hbinds : s.mem.heap.Binds vars vals bs) :
    ∃ e m', Ends (fun n => schemeExtendEnv n vars vals base) s.mem e m' ∧
      EnvSys.Models ⟨m', s.envs ++ [e]⟩ (A.extend bs i) := by
  obtain ⟨fs, hrep, henvs, hslots⟩ := h
  obtain ⟨f, hf, rfl⟩ := exists_frame henvs henv
  obtain ⟨t, tail, rest, ps, ht, htail, hvars, hvals, rfl⟩ := hbinds
  obtain ⟨m', hends, -, hrep'⟩ := hrep.extend hf ht htail hvars hvals
  refine ⟨_, m', hends, _, hrep', ?_, ?_⟩
  · rw [henvs, List.map_append]
    rfl
  · change A.slots ++ _ = _
    rw [hslots, List.map_append]
    rfl

/-- Defining a name binds it in the scope. -/
theorem EnvSys.Models.define (h : s.Models A) {e : Ptr} (henv : s.envs[i]? = some e) (x v : Ptr) :
    ∃ m', (schemeDefineVar x v e).run s.mem = some (x, m') ∧
      EnvSys.Models ⟨m', s.envs⟩ (A.bind i x v) := by
  obtain ⟨fs, hrep, henvs, hslots⟩ := h
  obtain ⟨f, hf, rfl⟩ := exists_frame henvs henv
  obtain ⟨m', hrun, -, hrep'⟩ := hrep.define hf x v
  refine ⟨m', hrun, _, hrep', ?_, ?_⟩
  · rw [map_set_of_eq hf (Frame.env_define ..), henvs]
  · rw [map_slots_set (g := (setBinding · x v)) hf (Frame.slots_define ..), ← hslots]
    rfl

/-- Assigning a name that the scope binds, and one that it does not. -/
theorem EnvSys.Models.set (h : s.Models A) {e : Ptr} (henv : s.envs[i]? = some e) (x v : Ptr) :
    ∃ m', (schemeSetVar x v e).run s.mem = some ((A.scopes.here i x).getD schemeVoid, m') ∧
      EnvSys.Models ⟨m', s.envs⟩ (envService.next A (.set x v i)) := by
  obtain ⟨m', hdefine, hmodels⟩ := h.define henv x v
  obtain ⟨fs, hrep, henvs, hslots⟩ := id h
  obtain ⟨f, hf, rfl⟩ := exists_frame henvs henv
  have hlies := hrep.lies f (List.mem_of_getElem? hf)
  have hhere := hrep.here i f hf x
  by_cases hx : x ∈ f.slots.map Binding.var
  · obtain ⟨w, hw, hset⟩ := schemeSetVar_bound hlies (v := v) hx
    rw [hdefine] at hset
    rw [hw] at hhere
    simp only [envService, hhere, Option.getD_some, Option.isSome_some, if_true]
    exact ⟨m', hset, hmodels⟩
  · rw [Frame.find, findBinding_of_notMem hx] at hhere
    simp only [envService, hhere, Option.getD_none, Option.isSome_none, Bool.false_eq_true,
      if_false]
    exact ⟨s.mem, schemeSetVar_unbound hlies hx, h⟩

theorem EnvSys.Models.lookup (h : s.Models A) {e : Ptr} (henv : s.envs[i]? = some e) (x : Ptr) :
    Ends (fun n => schemeLookupVar n x e) s.mem ((A.scopes.lookup i x).getD schemeVoid) s.mem := by
  obtain ⟨fs, hrep, henvs, -⟩ := h
  obtain ⟨f, hf, rfl⟩ := exists_frame henvs henv
  exact hrep.lookup hf x

/-- **The default implementation** answers as the service does. -/
theorem envSys_implements : envService.Implements EnvSys.Answers EnvSys.Models := by
  rintro s A c r s' hmodels ⟨m, hkept, hcalled⟩
  have h := hmodels.kept hkept
  cases hcalled with
  | extend henv hbinds hends =>
    obtain ⟨e, m', hends', hmodels'⟩ := h.extend henv hbinds
    obtain ⟨rfl, rfl⟩ := hends.unique hends'
    exact ⟨rfl, hmodels'⟩
  | define henv hrun =>
    obtain ⟨m', hrun', hmodels'⟩ := h.define henv _ _
    obtain ⟨rfl, rfl⟩ := run_unique hrun hrun'
    exact ⟨rfl, hmodels'⟩
  | set henv hrun =>
    obtain ⟨m', hrun', hmodels'⟩ := h.set henv _ _
    obtain ⟨rfl, rfl⟩ := run_unique hrun hrun'
    exact ⟨rfl, hmodels'⟩
  | lookup henv hends =>
    obtain ⟨rfl, rfl⟩ := hends.unique (h.lookup henv _)
    exact ⟨rfl, h⟩

/-- A call whose environment and lists are there returns. -/
theorem EnvSys.Models.answers (h : s.Models A) (hc : s.Ready c) :
    ∃ s', s.Answers (c, envService.answer A c) s' := by
  have hkept : s.Kept s.mem := ⟨rfl, rfl, fun _ _ => rfl⟩
  cases c with
  | extend bs i =>
    obtain ⟨hi, vars, vals, hbinds⟩ := hc
    obtain ⟨e, m', hends, -⟩ := h.extend (List.getElem?_eq_getElem hi) hbinds
    exact ⟨_, s.mem, hkept, .extend (List.getElem?_eq_getElem hi) hbinds hends⟩
  | define x v i =>
    obtain ⟨m', hrun, -⟩ := h.define (List.getElem?_eq_getElem hc) x v
    exact ⟨_, s.mem, hkept, .define (List.getElem?_eq_getElem hc) hrun⟩
  | set x v i =>
    obtain ⟨m', hrun, -⟩ := h.set (List.getElem?_eq_getElem hc) x v
    exact ⟨_, s.mem, hkept, .set (List.getElem?_eq_getElem hc) hrun⟩
  | lookup x i =>
    exact ⟨_, s.mem, hkept, .lookup (List.getElem?_eq_getElem hc)
      (h.lookup (List.getElem?_eq_getElem hc) x)⟩

theorem EnvSys.Models.map_slots? (h : s.Models A) : s.envs.map s.mem.slots? = A.slots.map some := by
  obtain ⟨fs, hrep, henvs, hslots⟩ := h
  rw [henvs, hslots, List.map_map, List.map_map]
  exact List.map_congr_left fun f hf => slots?_of_in (hrep.lies f hf)

end Default

/-! ## The implementation of `USE_ENV2`

So does the memory in which each environment has its own slots. -/

/-- The memory and the environments in it. -/
structure Env2Sys where
  mem : Memory2
  envs : List ℕ

/-- The slots in use of the environment `e`. -/
def Memory2.slots? (m : Memory2) (e : ℕ) : Option (List Binding) := do
  let env ← m.envs[e]?
  let slots ← m.mem.block? env.bindings
  (slots.take env.bindCnt).mapM id

namespace Env2Sys

/-- The memory that `schemeInitEnv2` leaves, with the global environment in it. -/
def init : Env2Sys where
  mem := (((schemeInitEnv2 none).run ⟨Memory.init, []⟩).map Prod.snd).getD ⟨Memory.init, []⟩
  envs := [0]

/-- The rest of the interpreter may change whatever is no environment. -/
structure Kept (s : Env2Sys) (m : Memory2) : Prop where
  envs : m.envs = s.mem.envs
  blocks : m.mem.blocks = s.mem.mem.blocks

/-- A call with its result. -/
inductive Called (s : Env2Sys) : EnvCall × Option Ptr → Env2Sys → Prop where
  | extend {m' : Memory2} {i base e : ℕ} {vars vals : Ptr} {bs : List Binding}
      (henv : s.envs[i]? = some base) (hbinds : s.mem.mem.heap.Binds vars vals bs)
      (hends : Ends (fun n => schemeExtendEnv2 n vars vals base) s.mem e m') :
      Called s (.extend bs i, none) ⟨m', s.envs ++ [e]⟩
  | define {m' : Memory2} {i e : ℕ} {x v r : Ptr} (henv : s.envs[i]? = some e)
      (hrun : (schemeDefineVar2 x v e).run s.mem = some (r, m')) :
      Called s (.define x v i, some r) ⟨m', s.envs⟩
  | set {m' : Memory2} {i e : ℕ} {x v r : Ptr} (henv : s.envs[i]? = some e)
      (hrun : (schemeSetVar2 x v e).run s.mem = some (r, m')) :
      Called s (.set x v i, some r) ⟨m', s.envs⟩
  | lookup {m' : Memory2} {i e : ℕ} {x r : Ptr} (henv : s.envs[i]? = some e)
      (hends : Ends (fun n => schemeLookupVar2 n x e) s.mem r m') :
      Called s (.lookup x i, some r) ⟨m', s.envs⟩

/-- The rest of the interpreter runs, and then a call is made. -/
def Answers (s : Env2Sys) (l : EnvCall × Option Ptr) (s' : Env2Sys) : Prop :=
  ∃ m, s.Kept m ∧ Called ⟨m, s.envs⟩ l s'

/-- The environment of the call is there, and the lists of an extension are. -/
def Ready (s : Env2Sys) : EnvCall → Prop
  | .extend bs i => i < s.envs.length ∧ ∃ vars vals, s.mem.mem.heap.Binds vars vals bs
  | .define _ _ i => i < s.envs.length
  | .set _ _ i => i < s.envs.length
  | .lookup _ i => i < s.envs.length

/-- The environment `i` is the outermost one, or it is in one that was made before it. -/
def Encloses (A : EnvSpec) (i : ℕ) (env : Env2) : Prop :=
  env.enclosing = none ∧ A.scopes.chain i = [i] ∨
    ∃ j < i, env.enclosing = some j ∧ A.scopes.chain i = i :: A.scopes.chain j

/-- The environments lie apart in memory, in the order in which they were made, with the slots of
the service. -/
structure Models (s : Env2Sys) (A : EnvSpec) : Prop where
  envs : s.envs = List.range A.slots.length
  size : s.mem.envs.length = A.slots.length
  lies : ∀ i slots, A.slots[i]? = some slots → ∃ env : Env2, env.In s.mem i slots ∧ Encloses A i env
  apart : ∀ (i j : ℕ) (env env' : Env2), s.mem.envs[i]? = some env → s.mem.envs[j]? = some env' →
    i ≠ j → env.bindings ≠ env'.bindings

end Env2Sys

section Env2

variable {s s' : Env2Sys} {A : EnvSpec} {m' : Memory2} {env env' : Env2} {slots : List Binding}
  {i e : ℕ} {c : EnvCall} {x v : Ptr}

theorem Env2.In.slots?_eq (h : env.In s.mem e slots) : s.mem.slots? e = some slots := by
  obtain ⟨rest, hblock, -⟩ := h.block
  simp only [Memory2.slots?, h.get, h.cnt, hblock, Option.bind_eq_bind, Option.bind_some,
    mapM_take_slots]

namespace Env2Sys

theorem envs_init : init.mem.envs = [⟨1, 0, 0, 128, none, 0⟩] := rfl

theorem block_init : ∃ rest, init.mem.mem.block? 0 = some (([] : List Binding).map some ++ rest) ∧
    ([] : List Binding).length + rest.length = 128 :=
  ⟨List.replicate 128 none, by decide +kernel, by decide +kernel⟩

theorem models_init : init.Models EnvSpec.init where
  envs := rfl
  size := rfl
  lies := by
    rintro (_ | i) slots h
    · obtain rfl : [] = slots := Option.some.inj h
      exact ⟨_, ⟨congrArg (·[0]?) envs_init, rfl, block_init⟩, .inl ⟨rfl, rfl⟩⟩
    · exact absurd h (by simp [EnvSpec.init])
  apart i j env env' h h' hij := by
    have hi := (List.getElem?_eq_some_iff.mp h).1
    have hj := (List.getElem?_eq_some_iff.mp h').1
    rw [envs_init, List.length_singleton] at hi hj
    omega

namespace Models

theorem kept {m : Memory2} (h : s.Models A) (hk : s.Kept m) : Env2Sys.Models ⟨m, s.envs⟩ A where
  envs := h.envs
  size := (congrArg List.length hk.envs).trans h.size
  lies i slots hslots := by
    obtain ⟨env, hin, henc⟩ := h.lies i slots hslots
    obtain ⟨rest, hblock, hlen⟩ := hin.block
    refine ⟨env, ⟨by rw [hk.envs]; exact hin.get, hin.cnt, rest, ?_, hlen⟩, henc⟩
    rw [Memory.block?, hk.blocks]
    exact hblock
  apart := by
    rw [hk.envs]
    exact h.apart

/-- The environment of a call, with its slots. -/
theorem exists_env (h : s.Models A) (he : s.envs[i]? = some e) :
    e = i ∧ ∃ (env : Env2) (slots : List Binding), A.slots[i]? = some slots ∧
      env.In s.mem i slots ∧ Encloses A i env := by
  rw [h.envs] at he
  obtain ⟨hi, rfl⟩ := List.getElem?_eq_some_iff.mp he
  rw [List.length_range] at hi
  obtain ⟨env, hin, henc⟩ := h.lies i _ (List.getElem?_eq_getElem hi)
  exact ⟨List.getElem_range .., env, _, List.getElem?_eq_getElem hi, hin, henc⟩

/-- Every environment has its slots. -/
theorem in_of_get (h : s.Models A) (henv : s.mem.envs[i]? = some env) :
    ∃ slots, A.slots[i]? = some slots ∧ env.In s.mem i slots := by
  have hi := (List.getElem?_eq_some_iff.mp henv).1
  rw [h.size] at hi
  obtain ⟨env', hin, -⟩ := h.lies i _ (List.getElem?_eq_getElem hi)
  obtain rfl : env' = env := Option.some.inj (hin.get.symm.trans henv)
  exact ⟨_, List.getElem?_eq_getElem hi, hin⟩

/-- An environment that is bound in keeps its slots apart from those of the others. -/
theorem apart_rebound (h : s.Models A) (hin : env.In s.mem i slots)
    (hre : Rebound s.mem m' i env env' (setBinding slots x v)) (j k : ℕ)
    (env₂ env₃ : Env2) : m'.envs[j]? = some env₂ → m'.envs[k]? = some env₃ → j ≠ k →
      env₂.bindings ≠ env₃.bindings := by
  have hother (j : ℕ) (env₁ : Env2) (hj : m'.envs[j]? = some env₁) (hji : j ≠ i) :
      env'.bindings ≠ env₁.bindings := by
    rw [hre.others.envs j hji] at hj
    rcases hre.block with hb | hb
    · rw [hb]
      exact h.apart i j _ _ hin.get hj (Ne.symm hji)
    · obtain ⟨slots₁, -, hin₁⟩ := h.in_of_get hj
      rw [hb]
      exact hin₁.block_lt.ne'
  intro hj hk hjk
  by_cases hji : j = i
  · subst hji
    obtain rfl : env₂ = env' := Option.some.inj (hj.symm.trans hre.here.get)
    exact hother k env₃ hk (Ne.symm hjk)
  · by_cases hki : k = i
    · subst hki
      obtain rfl : env₃ = env' := Option.some.inj (hk.symm.trans hre.here.get)
      exact (hother j env₂ hj hji).symm
    · exact h.apart j k _ _ ((hre.others.envs j hji).symm.trans hj)
        ((hre.others.envs k hki).symm.trans hk) hjk

/-- Binding a name in an environment binds it in the scope. -/
theorem rebound (h : s.Models A) (hin : env.In s.mem i slots) (hslots : A.slots[i]? = some slots)
    (hre : Rebound s.mem m' i env env' (setBinding slots x v)) :
    Env2Sys.Models ⟨m', s.envs⟩ (A.bind i x v) where
  envs := h.envs.trans (congrArg List.range (List.length_modify ..).symm)
  size := hre.others.size.trans (h.size.trans (List.length_modify ..).symm)
  lies j slots' hslots' := by
    have henc {k : ℕ} {env₁ env₂ : Env2} (h₁ : Encloses A k env₁)
        (heq : env₂.enclosing = env₁.enclosing) : Encloses (A.bind i x v) k env₂ := by
      simpa only [Encloses, EnvSpec.bind, Scopes.chain_define, heq] using h₁
    have hget : (A.slots.modify i (setBinding · x v))[j]? = some slots' := hslots'
    rw [List.getElem?_modify] at hget
    by_cases hij : i = j
    · subst hij
      obtain rfl : setBinding slots x v = slots' := by simpa [hslots] using hget
      obtain ⟨env₁, hin₁, henc₁⟩ := h.lies i _ hslots
      obtain rfl : env = env₁ := Option.some.inj (hin.get.symm.trans hin₁.get)
      exact ⟨env', hre.here, henc henc₁ hre.enclosing⟩
    · obtain ⟨env₁, hin₁, henc₁⟩ := h.lies j slots' (by simpa [hij] using hget)
      exact ⟨env₁, hre.others.keeps hin₁ (Ne.symm hij)
        (h.apart j i _ _ hin₁.get hin.get (Ne.symm hij)), henc henc₁ rfl⟩
  apart := h.apart_rebound hin hre

/-- A new environment has its slots apart from those of the others. -/
theorem apart_extended (h : s.Models A) {bs : List Binding} (hext : Extended s.mem m' i bs)
    (j k : ℕ) (env₂ env₃ : Env2) : m'.envs[j]? = some env₂ → m'.envs[k]? = some env₃ → j ≠ k →
      env₂.bindings ≠ env₃.bindings := by
  obtain ⟨env₁, hin₁, -, hblock⟩ := hext.new
  have hold (j : ℕ) (env₂ : Env2) (hj : m'.envs[j]? = some env₂) (hlt : j < s.mem.envs.length) :
      ∃ env₃, s.mem.envs[j]? = some env₃ ∧ env₂.bindings = env₃.bindings ∧
        env₂.bindings < s.mem.mem.blocks.length := by
    obtain ⟨slots₃, -, hin₃⟩ := h.in_of_get (List.getElem?_eq_getElem hlt)
    obtain ⟨env₄, hin₄, -, heq⟩ := hext.others _ _ _ hin₃
    obtain rfl : env₄ = env₂ := Option.some.inj (hin₄.get.symm.trans hj)
    exact ⟨_, hin₃.get, heq, heq ▸ hin₃.block_lt⟩
  have hlast (j : ℕ) (env₂ : Env2) (hj : m'.envs[j]? = some env₂) (hge : ¬j < s.mem.envs.length) :
      j = s.mem.envs.length ∧ env₂ = env₁ := by
    have hlt := (List.getElem?_eq_some_iff.mp hj).1
    rw [hext.size] at hlt
    obtain rfl : j = s.mem.envs.length := by omega
    exact ⟨rfl, Option.some.inj (hj.symm.trans hin₁.get)⟩
  intro hj hk hjk
  by_cases hj' : j < s.mem.envs.length
  · obtain ⟨env₄, hget, heq, hlt⟩ := hold j env₂ hj hj'
    by_cases hk' : k < s.mem.envs.length
    · obtain ⟨env₅, hget', heq', -⟩ := hold k env₃ hk hk'
      rw [heq, heq']
      exact h.apart j k _ _ hget hget' hjk
    · obtain ⟨-, rfl⟩ := hlast k env₃ hk hk'
      rw [hblock]
      exact hlt.ne
  · obtain ⟨rfl, rfl⟩ := hlast j env₂ hj hj'
    by_cases hk' : k < s.mem.envs.length
    · obtain ⟨env₅, -, -, hlt⟩ := hold k env₃ hk hk'
      rw [hblock]
      exact hlt.ne'
    · exact absurd (hlast k env₃ hk hk').1.symm hjk

/-- An environment made in another is a scope in its scope. -/
theorem extended (h : s.Models A) {bs : List Binding} (hi : i < A.slots.length)
    (hext : Extended s.mem m' i bs) :
    Env2Sys.Models ⟨m', s.envs ++ [s.mem.envs.length]⟩ (A.extend bs i) where
  envs := by
    rw [h.envs, h.size, ← List.range_succ, EnvSpec.length_extend]
  size := hext.size.trans ((congrArg (· + 1) h.size).trans (A.length_extend bs i).symm)
  lies j slots' hslots' := by
    have hchain {k : ℕ} (hk : k < A.slots.length) :
        (A.extend bs i).scopes.chain k = A.scopes.chain k :=
      Scopes.chain_extend_of_lt (by rw [A.size]; exact hk)
    have hget : (A.slots ++ [bs])[j]? = some slots' := hslots'
    rw [List.getElem?_append] at hget
    split_ifs at hget with hj
    · obtain ⟨env₁, hin₁, henc₁⟩ := h.lies j slots' hget
      obtain ⟨env₂, hin₂, heq, -⟩ := hext.others j env₁ slots' hin₁
      refine ⟨env₂, hin₂, henc₁.imp ?_ ?_⟩
      · rintro ⟨hnone, hone⟩
        exact ⟨heq.trans hnone, (hchain hj).trans hone⟩
      · rintro ⟨k, hk, hsome, hcons⟩
        exact ⟨k, hk, heq.trans hsome, by rw [hchain hj, hchain (hk.trans hj), hcons]⟩
    · obtain ⟨hlt, rfl⟩ := List.getElem?_eq_some_iff.mp hget
      obtain rfl : j = A.slots.length := by
        rw [List.length_singleton] at hlt
        omega
      obtain ⟨env₁, hin₁, hsome, -⟩ := hext.new
      rw [h.size] at hin₁
      have hnew : (A.extend bs i).scopes.chain A.scopes.size = A.scopes.size :: A.scopes.chain i :=
        Scopes.chain_extend_new
      rw [A.size] at hnew
      exact ⟨env₁, by simpa using hin₁, .inr ⟨i, hi, hsome, by rw [hchain hi]; exact hnew⟩⟩
  apart := h.apart_extended hext

/-! ### The four functions -/

theorem extend (h : s.Models A) {vars vals : Ptr} {bs : List Binding} (henv : s.envs[i]? = some e)
    (hbinds : s.mem.mem.heap.Binds vars vals bs) :
    ∃ e' m', Ends (fun n => schemeExtendEnv2 n vars vals e) s.mem e' m' ∧
      Env2Sys.Models ⟨m', s.envs ++ [e']⟩ (A.extend bs i) := by
  obtain ⟨rfl, env, slots, hslots, hin, -⟩ := h.exists_env henv
  obtain ⟨t, tail, rest, ps, ht, htail, hvars, hvals, rfl⟩ := hbinds
  have hi := (List.getElem?_eq_some_iff.mp hslots).1
  exact ⟨_, _, schemeExtendEnv2_ends hin ht htail hvars hvals, h.extended hi (extended_spec hin _)⟩

theorem define (h : s.Models A) (henv : s.envs[i]? = some e) (x v : Ptr) :
    ∃ m', (schemeDefineVar2 x v e).run s.mem = some (x, m') ∧
      Env2Sys.Models ⟨m', s.envs⟩ (A.bind i x v) := by
  obtain ⟨rfl, env, slots, hslots, hin, -⟩ := h.exists_env henv
  obtain ⟨m', env', hrun, hre⟩ := schemeDefineVar2_spec hin x v
  exact ⟨m', hrun, h.rebound hin hslots hre⟩

theorem set (h : s.Models A) (henv : s.envs[i]? = some e) (x v : Ptr) :
    ∃ m', (schemeSetVar2 x v e).run s.mem = some ((A.scopes.here i x).getD schemeVoid, m') ∧
      Env2Sys.Models ⟨m', s.envs⟩ (envService.next A (.set x v i)) := by
  obtain ⟨rfl, env, slots, hslots, hin, -⟩ := h.exists_env henv
  have hhere := A.here e x
  rw [hslots, Option.bind_some] at hhere
  by_cases hx : x ∈ slots.map Binding.var
  · obtain ⟨w, m', env', hw, hrun, hre⟩ := schemeSetVar2_bound (v := v) hin hx
    rw [hw] at hhere
    simp only [envService, hhere, Option.getD_some, Option.isSome_some, if_true]
    exact ⟨m', hrun, h.rebound hin hslots hre⟩
  · rw [findBinding_of_notMem hx] at hhere
    simp only [envService, hhere, Option.getD_none, Option.isSome_none, Bool.false_eq_true,
      if_false]
    exact ⟨s.mem, schemeSetVar2_unbound hin hx, h⟩

/-- A lookup goes from scope to scope, as far as the outermost one. -/
theorem lookup (h : s.Models A) (henv : s.envs[i]? = some e) (x : Ptr) :
    Ends (fun n => schemeLookupVar2 n x e) s.mem ((A.scopes.lookup i x).getD schemeVoid) s.mem := by
  induction i using Nat.strong_induction_on generalizing e with
  | _ i ih =>
    obtain ⟨rfl, env, slots, hslots, hin, henc⟩ := h.exists_env henv
    have hhere := A.here e x
    rw [hslots, Option.bind_some] at hhere
    by_cases hx : x ∈ slots.map Binding.var
    · obtain ⟨w, hw, hends⟩ := schemeLookupVar2_found hin hx
      rw [Scopes.lookup_of_here (hhere.trans hw), Option.getD_some]
      exact hends
    · rw [findBinding_of_notMem hx] at hhere
      rcases henc with ⟨hnone, hchain⟩ | ⟨j, hj, hsome, hchain⟩
      · rw [Scopes.lookup_outermost hchain, hhere, Option.getD_none]
        exact schemeLookupVar2_outermost hin hx hnone
      · rw [Scopes.lookup_inside hchain, hhere, Option.none_or]
        have hlt := (List.getElem?_eq_some_iff.mp hslots).1
        have hget : s.envs[j]? = some j := by
          rw [h.envs, List.getElem?_range (hj.trans hlt)]
        exact schemeLookupVar2_enclosing hin hx hsome (ih j hj hget)

/-- A call whose environment and lists are there returns. -/
theorem answers (h : s.Models A) (hc : s.Ready c) :
    ∃ s', s.Answers (c, envService.answer A c) s' := by
  have hkept : s.Kept s.mem := ⟨rfl, rfl⟩
  cases c with
  | extend bs i =>
    obtain ⟨hi, vars, vals, hbinds⟩ := hc
    obtain ⟨e, m', hends, -⟩ := h.extend (List.getElem?_eq_getElem hi) hbinds
    exact ⟨_, s.mem, hkept, .extend (List.getElem?_eq_getElem hi) hbinds hends⟩
  | define x v i =>
    obtain ⟨m', hrun, -⟩ := h.define (List.getElem?_eq_getElem hc) x v
    exact ⟨_, s.mem, hkept, .define (List.getElem?_eq_getElem hc) hrun⟩
  | set x v i =>
    obtain ⟨m', hrun, -⟩ := h.set (List.getElem?_eq_getElem hc) x v
    exact ⟨_, s.mem, hkept, .set (List.getElem?_eq_getElem hc) hrun⟩
  | lookup x i =>
    exact ⟨_, s.mem, hkept, .lookup (List.getElem?_eq_getElem hc)
      (h.lookup (List.getElem?_eq_getElem hc) x)⟩

theorem map_slots? (h : s.Models A) : s.envs.map s.mem.slots? = A.slots.map some := by
  refine List.ext_getElem? fun i => ?_
  rw [h.envs, List.getElem?_map, List.getElem?_map]
  by_cases hi : i < A.slots.length
  · obtain ⟨env, hin, -⟩ := h.lies i _ (List.getElem?_eq_getElem hi)
    rw [List.getElem?_range hi, List.getElem?_eq_getElem hi]
    exact congrArg some hin.slots?_eq
  · rw [List.getElem?_eq_none (Nat.le_of_not_lt hi),
      List.getElem?_eq_none (by rw [List.length_range]; exact Nat.le_of_not_lt hi)]
    rfl

end Models

/-- A computation of `USE_ENV2` has one result. -/
theorem run_unique2 {α : Type} {k : Comp2 α} {m m₁ m₂ : Memory2} {a b : α}
    (ha : k.run m = some (a, m₁)) (hb : k.run m = some (b, m₂)) : a = b ∧ m₁ = m₂ :=
  Prod.ext_iff.mp (Option.some.inj (ha.symm.trans hb))

/-- **The implementation of `USE_ENV2`** answers as the service does. -/
theorem env2_implements : envService.Implements Answers Models := by
  rintro s A c r s' hmodels ⟨m, hkept, hcalled⟩
  have h := hmodels.kept hkept
  cases hcalled with
  | extend henv hbinds hends =>
    obtain ⟨e, m', hends', hmodels'⟩ := h.extend henv hbinds
    obtain ⟨rfl, rfl⟩ := hends.unique hends'
    exact ⟨rfl, hmodels'⟩
  | define henv hrun =>
    obtain ⟨m', hrun', hmodels'⟩ := h.define henv _ _
    obtain ⟨rfl, rfl⟩ := run_unique2 hrun hrun'
    exact ⟨rfl, hmodels'⟩
  | set henv hrun =>
    obtain ⟨m', hrun', hmodels'⟩ := h.set henv _ _
    obtain ⟨rfl, rfl⟩ := run_unique2 hrun hrun'
    exact ⟨rfl, hmodels'⟩
  | lookup henv hends =>
    obtain ⟨rfl, rfl⟩ := hends.unique (h.lookup henv _)
    exact ⟨rfl, h⟩

end Env2Sys

end Env2

/-! ## The two implementations -/

/-- **With and without `USE_ENV2`**: after the same calls both have returned the same values and
hold the same bindings, and what can be called next returns the same in both. -/
theorem env2_agrees {ls ls' : List (EnvCall × Option Ptr)} {s : EnvSys} {t : Env2Sys}
    (hs : Runs EnvSys.Answers EnvSys.init ls s) (ht : Runs Env2Sys.Answers Env2Sys.init ls' t)
    (hcalls : ls.map Prod.fst = ls'.map Prod.fst) :
    ls = ls' ∧
      (∃ slots : List (List Binding), s.envs.map s.mem.slots? = slots.map some ∧
        t.envs.map t.mem.slots? = slots.map some) ∧
      ∀ c, s.Ready c → t.Ready c → ∃ r s' t', s.Answers (c, r) s' ∧ t.Answers (c, r) t' := by
  obtain ⟨rfl, hmodels, hmodels'⟩ := envSys_implements.agree Env2Sys.env2_implements models_init
    Env2Sys.models_init hs ht hcalls
  refine ⟨rfl, ⟨_, hmodels.map_slots?, hmodels'.map_slots?⟩, fun c hc hc' => ?_⟩
  obtain ⟨s', hs'⟩ := hmodels.answers hc
  obtain ⟨t', ht'⟩ := hmodels'.answers hc'
  exact ⟨_, s', t', hs', ht'⟩

/-- An environment without parameters in the global one, and a name defined in it. -/
theorem env2_agrees_define : ∃ (s : EnvSys) (t : Env2Sys) (ls : List (EnvCall × Option Ptr)),
    ls = [(.extend [] 0, none), (.define (.obj 2) (.obj 3) 1, some (.obj 2))] ∧
      Runs EnvSys.Answers EnvSys.init ls s ∧ Runs Env2Sys.Answers Env2Sys.init ls t ∧
      ∃ slots : List (List Binding), s.envs.map s.mem.slots? = slots.map some ∧
        t.envs.map t.mem.slots? = slots.map some := by
  have hnull : EnvSys.init.mem.heap.Binds schemeNull schemeNull [] :=
    ⟨.null, schemeNull, schemeNull, [], by decide, rfl, rfl, rfl, rfl⟩
  have hnull' : Env2Sys.init.mem.mem.heap.Binds schemeNull schemeNull [] :=
    ⟨.null, schemeNull, schemeNull, [], by decide, rfl, rfl, rfl, rfl⟩
  obtain ⟨s₁, hs₁⟩ := models_init.answers (c := .extend [] 0) ⟨Nat.one_pos, _, _, hnull⟩
  obtain ⟨t₁, ht₁⟩ := Env2Sys.models_init.answers (c := .extend [] 0) ⟨Nat.one_pos, _, _, hnull'⟩
  have hs := (envSys_implements _ _ _ _ _ models_init hs₁).2
  have ht := (Env2Sys.env2_implements _ _ _ _ _ Env2Sys.models_init ht₁).2
  have hlen := congrArg List.length hs.map_slots?
  have hlen' := congrArg List.length ht.map_slots?
  rw [List.length_map, List.length_map] at hlen hlen'
  obtain ⟨s, hs₂⟩ := hs.answers (c := .define (.obj 2) (.obj 3) 1)
    (Nat.one_lt_two.trans_eq hlen.symm)
  obtain ⟨t, ht₂⟩ := ht.answers (c := .define (.obj 2) (.obj 3) 1)
    (Nat.one_lt_two.trans_eq hlen'.symm)
  have hruns := Runs.cons hs₁ (.single hs₂)
  have hruns' := Runs.cons ht₁ (.single ht₂)
  exact ⟨s, t, _, rfl, hruns, hruns', (env2_agrees hruns hruns' rfl).2.1⟩

end SchemeOs
