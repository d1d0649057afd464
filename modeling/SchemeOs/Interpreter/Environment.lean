import SchemeOs.Interpreter.Object
import SchemeOs.Machinery.Fuel

/-!
# Interpreter/Environment — the environments of the interpreter

An environment is an object with a binding record and the environment that encloses it.  The record
counts the slots in use in its block, and the slots that are in use come first.
-/

namespace SchemeOs

/-- `BINDING_SLOTS_SIZE` -/
def bindingSlotsSize : ℕ := 32

/-! ## The memory of environments -/

/-- `SCHEME_ENV_BINDING` and `SCHEME_ENV_ENCLOSING` -/
def Memory.env? (m : Memory) (e : Ptr) : Option (ℕ × Ptr) :=
  match m.heap.obj? e with
  | some ⟨_, .env _ bindings enclosing⟩ => some (bindings, enclosing)
  | _ => none

/-- The block `b`, unless it was freed. -/
def Memory.block? (m : Memory) (b : ℕ) : Option (List (Option Binding)) := m.blocks[b]?.join

/-- The memory with the block `b` holding `slots`. -/
def Memory.setBlock (m : Memory) (b : ℕ) (slots : List (Option Binding)) : Memory :=
  { m with blocks := m.blocks.set b (some slots) }

/-- The memory with a new block of `max` slots, none of them written. -/
def Memory.newBlock (m : Memory) (max : ℕ) : Memory :=
  { m with blocks := m.blocks ++ [some (List.replicate max none)] }

/-- The memory with the block `b` freed. -/
def Memory.dropBlock (m : Memory) (b : ℕ) : Memory := { m with blocks := m.blocks.set b none }

/-- The memory with a new record. -/
def Memory.newBindings (m : Memory) (b : Bindings) : Memory :=
  { m with bindings := m.bindings ++ [b] }

/-- The memory with the record `r` set. -/
def Memory.setBindings (m : Memory) (r : ℕ) (b : Bindings) : Memory :=
  { m with bindings := m.bindings.set r b }

/-- The record of an environment, and the one that encloses it. -/
def schemeEnv (e : Ptr) : Comp (ℕ × Ptr) := readMem fun m => m.env? e

/-- The record. -/
def loadBindings (r : ℕ) : Comp Bindings := readMem fun m => m.bindings[r]?

def storeBindings (r : ℕ) (b : Bindings) : Comp Unit := fun m =>
  if r < m.bindings.length then some ((), m.setBindings r b) else none

def allocBindings (b : Bindings) : Comp ℕ := fun m => some (m.bindings.length, m.newBindings b)

/-- The slots of a block that has not been freed. -/
def loadBlock (b : ℕ) : Comp (List (Option Binding)) := readMem fun m => m.block? b

/-- `scheme_alloc(sizeof(struct Binding) * max)` -/
def allocBlock (max : ℕ) : Comp ℕ := fun m => some (m.blocks.length, m.newBlock max)

/-- Write the slot `i` of the block `b`. -/
def writeSlot (b i : ℕ) (s : Binding) : Comp Unit := fun m =>
  (m.block? b).bind fun slots =>
    if i < slots.length then
      some ((), m.setBlock b (slots.set i (some s)))
    else none

/-- `memcpy(dst, src, sizeof(struct Binding) * n)` -/
def copySlots (dst src n : ℕ) : Comp Unit := fun m =>
  (m.block? src).bind fun old => (m.block? dst).bind fun new =>
    if n ≤ old.length ∧ n ≤ new.length then
      some ((), m.setBlock dst (old.take n ++ new.drop n))
    else none

/-- `scheme_free` of a block -/
def freeBlock (b : ℕ) : Comp Unit := fun m =>
  (m.block? b).map fun _ => ((), m.dropBlock b)

section Run

variable {m : Memory} {r b c n i : ℕ} {e enclosing : Ptr} {rec : Bindings} {s : Binding}
  {slots slots' : List (Option Binding)}

theorem run_schemeEnv (h : m.env? e = some (r, enclosing)) :
    (schemeEnv e).run m = some ((r, enclosing), m) :=
  run_readMem h

theorem run_loadBindings (h : m.bindings[r]? = some rec) :
    (loadBindings r).run m = some (rec, m) :=
  run_readMem h

theorem run_storeBindings {b : Bindings} (h : r < m.bindings.length) :
    (storeBindings r b).run m = some ((), m.setBindings r b) := by
  simp [storeBindings, StateT.run, h]

theorem run_loadBlock (h : m.block? b = some slots) : (loadBlock b).run m = some (slots, m) :=
  run_readMem h

theorem run_writeSlot (h : m.block? b = some slots) (hi : i < slots.length) :
    (writeSlot b i s).run m = some ((), m.setBlock b (slots.set i (some s))) := by
  simp [writeSlot, StateT.run, h, hi]

theorem run_copySlots (hb : m.block? b = some slots) (hc : m.block? c = some slots')
    (hn : n ≤ slots.length) (hn' : n ≤ slots'.length) :
    (copySlots c b n).run m = some ((), m.setBlock c (slots.take n ++ slots'.drop n)) := by
  simp [copySlots, StateT.run, hb, hc, hn, hn']

theorem run_freeBlock (h : m.block? b = some slots) :
    (freeBlock b).run m = some ((), m.dropBlock b) := by
  simp [freeBlock, StateT.run, h]

theorem bindings_setBindings_self (h : r < m.bindings.length) :
    (m.setBindings r rec).bindings[r]? = some rec := by
  simp [Memory.setBindings, h]

theorem bindings_setBindings_of_ne {r' : ℕ} (h : r' ≠ r) :
    (m.setBindings r rec).bindings[r']? = m.bindings[r']? :=
  List.getElem?_set_ne h.symm

theorem block?_setBlock_self (hb : b < m.blocks.length) :
    (m.setBlock b slots).block? b = some slots := by
  simp [Memory.block?, Memory.setBlock, hb]

theorem block?_setBlock_of_ne (h : c ≠ b) : (m.setBlock b slots).block? c = m.block? c := by
  simp [Memory.block?, Memory.setBlock, h.symm]

/-- Writing a block back changes nothing. -/
theorem setBlock_self (h : m.block? b = some slots) : m.setBlock b slots = m := by
  rw [Memory.block?, Option.join_eq_some_iff] at h
  obtain ⟨hlt, heq⟩ := List.getElem?_eq_some_iff.mp h
  rw [Memory.setBlock, ← heq, List.set_getElem_self]

theorem setBlock_setBlock : (m.setBlock b slots).setBlock b slots' = m.setBlock b slots' := by
  simp [Memory.setBlock]

theorem block?_newBlock_of_lt (h : b < m.blocks.length) : (m.newBlock n).block? b = m.block? b := by
  rw [Memory.block?, Memory.newBlock, List.getElem?_append_left h, Memory.block?]

/-- A new block has slots that nothing has been written into. -/
theorem block?_newBlock_new : (m.newBlock n).block? m.blocks.length =
    some (List.replicate n none) := by
  simp [Memory.block?, Memory.newBlock]

/-- The other blocks stay. -/
theorem block?_dropBlock_of_ne (h : c ≠ b) : (m.dropBlock b).block? c = m.block? c := by
  simp [Memory.block?, Memory.dropBlock, h.symm]

theorem run_allocBindings {b : Bindings} :
    (allocBindings b).run m = some (m.bindings.length, m.newBindings b) := rfl

theorem run_allocBlock : (allocBlock n).run m = some (m.blocks.length, m.newBlock n) := rfl

/-- A block that is there is one of the blocks allocated. -/
theorem block_lt (h : m.block? b = some slots) : b < m.blocks.length := by
  by_contra hlt
  rw [Memory.block?, List.getElem?_eq_none (by omega)] at h
  simp at h

end Run

/-! ## The operations -/

/-- The loop over the first `cnt` slots: the place of the first one of `var`, `none` when there is
none.  It fails when it reads past the block, or a slot that was never written. -/
def findSlot (var : Ptr) : ℕ → List (Option Binding) → Option (Option ℕ)
  | 0, _ => some none
  | _ + 1, [] => none
  | _ + 1, none :: _ => none
  | n + 1, some s :: slots =>
    if s.var = var then some (some 0) else (findSlot var n slots).map fun i => i.map (· + 1)

/-- The value in the slot `i`. -/
def slotVal (slots : List (Option Binding)) (i : ℕ) : Option Ptr :=
  (slots[i]?.join).map Binding.val

def schemeInitEnv : Comp Unit := do
  let pairs ← allocBlock 128
  let bindings ← allocBindings ⟨0, 128, pairs⟩
  fun m => some ((), m.modify schemeGlobalEnvironment fun _ =>
    ⟨.env, .env schemeNull bindings schemeNull⟩)

def schemeLookupVar : ℕ → Ptr → Ptr → Comp Ptr
  | 0, _, _ => failure
  | n + 1, var, env =>
    if env = schemeNull then
      return schemeVoid
    else do
      let (r, enclosing) ← schemeEnv env
      let b ← loadBindings r
      let pairs ← loadBlock b.binds
      match ← (liftM (findSlot var b.bindCnt pairs) : Comp (Option ℕ)) with
      | some i => liftM (slotVal pairs i)
      | none => schemeLookupVar n var enclosing

/-- The loop that counts the parameters; it also returns where the list ends. -/
def countVars : ℕ → Ptr → ℕ → Comp (ℕ × Ptr)
  | 0, _, _ => failure
  | n + 1, p, cnt => do
    if (← schemeType p) = .pair then
      countVars n (← schemeCdr p) (cnt + 1)
    else
      return (cnt, p)

/-- The loop that fills the slots from `i` on; it returns what is left of both lists. -/
def fillSlots (b : ℕ) : ℕ → ℕ → Ptr → Ptr → Comp (ℕ × Ptr × Ptr)
  | 0, _, _, _ => failure
  | n + 1, i, vars, vals => do
    if (← schemeType vars) = .pair then
      writeSlot b i ⟨← schemeCar vars, ← schemeCar vals⟩
      fillSlots b n (i + 1) (← schemeCdr vars) (← schemeCdr vals)
    else
      return (i, vars, vals)

def schemeExtendEnv (n : ℕ) (vars vals baseEnv : Ptr) : Comp Ptr := do
  let (k, p) ← countVars n vars 0
  -- a symbol at the end of the parameters takes the rest of the values
  let cnt := if (← schemeType p) = .symbol then k + 1 else k
  let max := (cnt + bindingSlotsSize - 1) / bindingSlotsSize * bindingSlotsSize
  let pairs ← allocBlock max
  let bindings ← allocBindings ⟨cnt, max, pairs⟩
  let (i, vars, vals) ← fillSlots pairs n 0 vars vals
  if (← schemeType vars) = .symbol then
    writeSlot pairs i ⟨vars, vals⟩
  schemeAllocObj ⟨.env, .env schemeNull bindings baseEnv⟩

/-- Move the slots to a new block that has room for more, and free the old one. -/
def growBlock (b : Bindings) : Comp Bindings := do
  let max := b.maxBind + bindingSlotsSize
  let newBlk ← allocBlock max
  copySlots newBlk b.binds b.bindCnt
  freeBlock b.binds
  return { b with maxBind := max, binds := newBlk }

def schemeDefineVar (var val env : Ptr) : Comp Ptr := do
  let (r, _) ← schemeEnv env
  let b ← loadBindings r
  let slots ← loadBlock b.binds
  match ← (liftM (findSlot var b.bindCnt slots) : Comp (Option ℕ)) with
  | some i =>
    writeSlot b.binds i ⟨var, val⟩
    return var
  | none =>
    let b ← if b.bindCnt = b.maxBind then growBlock b else pure b
    storeBindings r { b with bindCnt := b.bindCnt + 1 }
    writeSlot b.binds b.bindCnt ⟨var, val⟩
    return var

def schemeSetVar (var val env : Ptr) : Comp Ptr := do
  let (r, _) ← schemeEnv env
  let b ← loadBindings r
  let slots ← loadBlock b.binds
  match ← (liftM (findSlot var b.bindCnt slots) : Comp (Option ℕ)) with
  | some i =>
    let v ← (liftM (slotVal slots i) : Comp Ptr)
    writeSlot b.binds i ⟨var, val⟩
    return v
  | none => return schemeVoid

/-- What `growBlock` leaves of a memory in which a full block holds `slots`. -/
def Memory.grown (m : Memory) (b : ℕ) (slots : List (Option Binding)) : Memory :=
  ((m.newBlock (slots.length + bindingSlotsSize)).setBlock m.blocks.length
    (slots ++ List.replicate bindingSlotsSize none)).dropBlock b

section Grow

variable {m : Memory} {b c cnt : ℕ} {slots : List (Option Binding)}

/-- The slots are copied into a larger block, and the old one is freed. -/
theorem run_growBlock (h : m.block? b = some slots) :
    (growBlock ⟨slots.length, slots.length, b⟩).run m = some (⟨slots.length,
      slots.length + bindingSlotsSize, m.blocks.length⟩, m.grown b slots) := by
  have hlt := block_lt h
  have hcopy : (copySlots m.blocks.length b slots.length).run
      (m.newBlock (slots.length + bindingSlotsSize)) = some ((), _) :=
    run_copySlots ((block?_newBlock_of_lt hlt).trans h) block?_newBlock_new (Nat.le_refl _)
      (by simp)
  rw [List.take_length, List.drop_replicate, Nat.add_sub_cancel_left] at hcopy
  have hfree : (freeBlock b).run ((m.newBlock (slots.length + bindingSlotsSize)).setBlock
      m.blocks.length (slots ++ List.replicate bindingSlotsSize none)) = some ((), _) :=
    run_freeBlock ((block?_setBlock_of_ne hlt.ne).trans ((block?_newBlock_of_lt hlt).trans h))
  simp [growBlock, run_allocBlock, hcopy, hfree, Memory.grown]

theorem block?_grown_new (h : m.block? b = some slots) :
    (m.grown b slots).block? m.blocks.length =
      some (slots ++ List.replicate bindingSlotsSize none) := by
  rw [Memory.grown, block?_dropBlock_of_ne (block_lt h).ne', block?_setBlock_self]
  simp [Memory.newBlock]

/-- Growing a block leaves the others as they were. -/
theorem block?_grown_of_ne (hc : c < m.blocks.length) (hne : c ≠ b) :
    (m.grown b slots).block? c = m.block? c := by
  rw [Memory.grown, block?_dropBlock_of_ne hne, block?_setBlock_of_ne hc.ne,
    block?_newBlock_of_lt hc]

end Grow

end SchemeOs
