import SchemeOs.Interpreter.FrameOps

/-!
# Interpreter/Env2 — the environments of `USE_ENV2`

When `USE_ENV2` is defined an environment is a record of its own: it counts the environments inside
it and its depth, has the counters of its block beside them, and ends a chain with `NULL`.
-/

namespace SchemeOs

/-! ## The memory -/

/-- `Scheme_env_t`; its counters do not overflow, and `bindings` is the number of a block. -/
structure Env2 where
  refCnt : ℕ
  deepth : ℕ
  bindCnt : ℕ
  maxBind : ℕ
  enclosing : Option ℕ
  bindings : ℕ
  deriving DecidableEq, Repr

/-- Objects and blocks as before, without binding records, and the environments. -/
structure Memory2 where
  mem : Memory
  envs : List Env2
  deriving DecidableEq, Repr

abbrev Comp2 := StateT Memory2 Option

/-- What does not concern environments. -/
def onMem {α : Type} (k : Comp α) : Comp2 α := fun m =>
  (k m.mem).map fun r => (r.1, { m with mem := r.2 })

/-- The memory with the environment `e` set. -/
def Memory2.setEnv (m : Memory2) (e : ℕ) (env : Env2) : Memory2 :=
  { m with envs := m.envs.set e env }

/-- The memory with a new environment. -/
def Memory2.newEnv (m : Memory2) (env : Env2) : Memory2 := { m with envs := m.envs ++ [env] }

def loadEnv (e : ℕ) : Comp2 Env2 := fun m => m.envs[e]?.map (·, m)

def storeEnv (e : ℕ) (env : Env2) : Comp2 Unit := fun m =>
  if e < m.envs.length then some ((), m.setEnv e env) else none

/-- `scheme_alloc(sizeof(Scheme_env_t))`, with the assignments that fill the environment in. -/
def allocEnv (env : Env2) : Comp2 ℕ := fun m => some (m.envs.length, m.newEnv env)

section Run

variable {α : Type} {m : Memory2} {mem : Memory} {e : ℕ} {env : Env2} {a : α}

theorem run_onMem {k : Comp α} (h : k.run m.mem = some (a, mem)) :
    (onMem k).run m = some (a, { m with mem := mem }) := by
  simp only [StateT.run] at h
  simp [onMem, StateT.run, h]

theorem run_loadEnv (h : m.envs[e]? = some env) : (loadEnv e).run m = some (env, m) := by
  simp [loadEnv, StateT.run, h]

theorem run_storeEnv (h : e < m.envs.length) :
    (storeEnv e env).run m = some ((), m.setEnv e env) := by
  simp [storeEnv, StateT.run, h]

theorem run_allocEnv : (allocEnv env).run m = some (m.envs.length, m.newEnv env) := rfl

/-- A computation that ends on its part of the memory. -/
theorem Ends.onMem {f : ℕ → Comp α} (h : Ends f m.mem a mem) :
    Ends (fun n => SchemeOs.onMem (f n)) m a { m with mem := mem } := by
  obtain ⟨N, hN⟩ := h
  exact ⟨N, fun n hn => run_onMem (hN n hn)⟩

end Run

/-! ## The operations -/

/-- `scheme_init_env` up to the bindings that it makes: the global environment is the first one. -/
def schemeInitEnv2 (env : Option ℕ) : Comp2 Unit := do
  let bindings ← onMem (allocBlock 128)
  discard (allocEnv ⟨1, 0, 0, 128, env, bindings⟩)

def schemeLookupVar2 : ℕ → Ptr → ℕ → Comp2 Ptr
  | 0, _, _ => failure
  | n + 1, var, env => do
    let e ← loadEnv env
    let slots ← onMem (loadBlock e.bindings)
    match ← (liftM (findSlot var e.bindCnt slots) : Comp2 (Option ℕ)) with
    | some i => liftM (slotVal slots i)
    | none =>
      match e.enclosing with
      | some env => schemeLookupVar2 n var env
      | none => return schemeVoid

def schemeExtendEnv2 (n : ℕ) (vars vals : Ptr) (baseEnv : ℕ) : Comp2 ℕ := do
  let (k, p) ← onMem (countVars n vars 0)
  let cnt := if (← onMem (schemeType p)) = .symbol then k + 1 else k
  let max := (cnt + bindingSlotsSize - 1) / bindingSlotsSize * bindingSlotsSize
  let base ← loadEnv baseEnv
  storeEnv baseEnv { base with refCnt := base.refCnt + 1 }
  let b ← onMem (allocBlock max)
  let frame ← allocEnv ⟨0, base.deepth + 1, cnt, max, some baseEnv, b⟩
  let (i, vars, vals) ← onMem (fillSlots b n 0 vars vals)
  if (← onMem (schemeType vars)) = .symbol then
    onMem (writeSlot b i ⟨vars, vals⟩)
  return frame

/-- Move the slots to a new block, as `growBlock` does. -/
def growEnv (e : Env2) : Comp2 Env2 := do
  let b ← onMem (growBlock ⟨e.bindCnt, e.maxBind, e.bindings⟩)
  return { e with maxBind := b.maxBind, bindings := b.binds }

def schemeDefineVar2 (var val : Ptr) (env : ℕ) : Comp2 Ptr := do
  let e ← loadEnv env
  let slots ← onMem (loadBlock e.bindings)
  match ← (liftM (findSlot var e.bindCnt slots) : Comp2 (Option ℕ)) with
  | some i =>
    onMem (writeSlot e.bindings i ⟨var, val⟩)
    return var
  | none =>
    let e ← if e.bindCnt = e.maxBind then growEnv e else pure e
    storeEnv env { e with bindCnt := e.bindCnt + 1 }
    onMem (writeSlot e.bindings e.bindCnt ⟨var, val⟩)
    return var

def schemeSetVar2 (var val : Ptr) (env : ℕ) : Comp2 Ptr := do
  let e ← loadEnv env
  let slots ← onMem (loadBlock e.bindings)
  match ← (liftM (findSlot var e.bindCnt slots) : Comp2 (Option ℕ)) with
  | some i =>
    let v ← (liftM (slotVal slots i) : Comp2 Ptr)
    onMem (writeSlot e.bindings i ⟨var, val⟩)
    return v
  | none => return schemeVoid

end SchemeOs
