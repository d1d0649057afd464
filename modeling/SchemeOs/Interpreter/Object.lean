import Mathlib.Data.Nat.Notation
import Mathlib.Data.Int.Notation
import Mathlib.Data.List.Basic
import Mathlib.Logic.Function.Basic

/-!
# Interpreter/Object — the objects of the interpreter in memory

`Memory` holds the objects, the binding records of environments and their blocks of slots, each in
a list of its own: an address is a position, and allocation, which is taken to succeed, appends.  A
computation is a state transformer that fails where the C code would do something undefined: follow
a character as if it were an address, read a field that the object does not have, or touch a block
that was freed.
-/

namespace SchemeOs

/-- `enum Scheme_types`, in its order. -/
inductive SchemeType where
  | env | forward | entry | valuesTypes
  | primProc | cpdProc | closure | procStruct
  | char | number | integer | bignum | rational | real | float | double | numberType
  | string | symbol | null | pair | vector | inputPort | outputPort | eof | bool | void | lazyMacro
  | exprType
  | selfEvaluating | quotedExpr | variableExpr | assignmentExpr | defvarExpr | defunExpr | ifExpr
  | lambdaExpr | beginExpr | sequenceExpr | condExpr | applicationExpr | andExpr | orExpr
  | elseClause
  | undefined
  deriving DecidableEq, Repr

/-- The types above `_scheme_expr_type_` are those of analyzed expressions. -/
def SchemeType.IsExpr (t : SchemeType) : Prop := SchemeType.exprType.ctorIdx < t.ctorIdx

instance (t : SchemeType) : Decidable t.IsExpr := inferInstanceAs (Decidable (_ < _))

/-- `Scheme_obj_t *`: a character, told by the lowest bit of the word, or the address of an object.
-/
inductive Ptr where
  | char (c : Char)
  | obj (a : ℕ)
  deriving DecidableEq, Repr

/-- The union of `struct Scheme_obj`.  An object made with its cdr left unset has no cdr. -/
inductive Payload where
  | const
  | pair (car : Ptr) (cdr : Option Ptr)
  | symbol (str : List Char)
  | int (val : ℤ)
  | str (str : List Char)
  | vector (buf : List Ptr)
  | primProc (builtin : ℕ) (mina maxa : ℤ)
  | cpdProc (paras body env : Ptr)
  | env (name : Ptr) (bindings : ℕ) (enclosing : Ptr)
  deriving DecidableEq, Repr

structure Obj where
  type : SchemeType
  u : Payload
  deriving DecidableEq, Repr

/-- `struct Binding` -/
structure Binding where
  var : Ptr
  val : Ptr
  deriving DecidableEq, Repr

/-- `Scheme_bindings_t`; its counters do not overflow, and `binds` is the number of a block. -/
structure Bindings where
  bindCnt : ℕ
  maxBind : ℕ
  binds : ℕ
  deriving DecidableEq, Repr

/-- The memory: a block of slots is `none` once freed, and a slot is `none` until written. -/
structure Memory where
  objs : List Obj
  bindings : List Bindings
  blocks : List (Option (List (Option Binding)))
  deriving DecidableEq, Repr

/-! ## The constants -/

def schemeNull : Ptr := .obj 0

def schemeVoid : Ptr := .obj 1

def schemeTrue : Ptr := .obj 2

def schemeFalse : Ptr := .obj 3

def schemeGlobalEnvironment : Ptr := .obj 5

/-- The constants, once `scheme_init` has set their types, and nothing else.  `scheme_init_proc`,
which would set that of `scheme_void`, is never called, and nothing sets that of `scheme_eof`: both
stay zero, which is the type of environments. -/
def Memory.init : Memory where
  objs := [⟨.null, .const⟩, ⟨.env, .const⟩, ⟨.bool, .const⟩, ⟨.bool, .const⟩, ⟨.env, .const⟩,
    ⟨.env, .const⟩]
  bindings := []
  blocks := []

/-! ## Reading objects -/

/-- Some objects, by their addresses: those of a memory, or a part of them. -/
def Heap := ℕ → Option Obj

namespace Heap

variable {H H' H'' : Heap} {p q : Ptr} {o : Obj} {t : SchemeType}

def obj? (H : Heap) : Ptr → Option Obj
  | .char _ => none
  | .obj a => H a

/-- `SCHEME_TYPE` -/
def type? (H : Heap) : Ptr → Option SchemeType
  | .char _ => some .char
  | .obj a => (H a).map Obj.type

/-- `SCHEME_CAR` -/
def car? (H : Heap) (p : Ptr) : Option Ptr :=
  match H.obj? p with
  | some ⟨_, .pair car _⟩ => some car
  | _ => none

/-- `SCHEME_CDR` -/
def cdr? (H : Heap) (p : Ptr) : Option Ptr :=
  match H.obj? p with
  | some ⟨_, .pair _ cdr⟩ => cdr
  | _ => none

/-- `SCHEME_SYMBOL_VAL` -/
def symbolVal? (H : Heap) (p : Ptr) : Option (List Char) :=
  match H.obj? p with
  | some ⟨_, .symbol str⟩ => some str
  | _ => none

/-- `SCHEME_PROC_PARAS`, `SCHEME_PROC_BODY` and `SCHEME_PROC_ENV` -/
def cpdProc? (H : Heap) (p : Ptr) : Option (Ptr × Ptr × Ptr) :=
  match H.obj? p with
  | some ⟨_, .cpdProc paras body env⟩ => some (paras, body, env)
  | _ => none

/-- `SCHEME_PRIM_FUN`, `SCHEME_PRIM_MINA` and `SCHEME_PRIM_MAXA` -/
def primProc? (H : Heap) (p : Ptr) : Option (ℕ × ℤ × ℤ) :=
  match H.obj? p with
  | some ⟨_, .primProc builtin mina maxa⟩ => some (builtin, mina, maxa)
  | _ => none

/-- The pairs from `p` on hold `xs` in their cars, and after them comes `q`. -/
def Spine (H : Heap) : Ptr → List Ptr → Ptr → Prop
  | p, [], q => p = q
  | p, x :: xs, q =>
    H.type? p = some .pair ∧ H.car? p = some x ∧ ∃ r, H.cdr? p = some r ∧ H.Spine r xs q

theorem type?_of_obj? (h : H.obj? p = some o) : H.type? p = some o.type := by
  cases p with
  | char c => simp [obj?] at h
  | obj a => simpa [type?] using ⟨o, h, rfl⟩

theorem car?_of_obj? {u : Option Ptr} (h : H.obj? p = some ⟨t, .pair q u⟩) :
    H.car? p = some q := by
  rw [car?, h]

theorem cdr?_of_obj? {a : Ptr} {u : Option Ptr} (h : H.obj? p = some ⟨t, .pair a u⟩) :
    H.cdr? p = u := by
  rw [cdr?, h]

theorem cpdProc?_of_obj? {paras body env : Ptr} (h : H.obj? p = some ⟨t, .cpdProc paras body env⟩) :
    H.cpdProc? p = some (paras, body, env) := by
  rw [cpdProc?, h]

theorem obj?_of_car? (h : H.car? p = some q) : ∃ t u, H.obj? p = some ⟨t, .pair q u⟩ := by
  unfold car? at h
  split at h
  · next t a u heq => exact ⟨t, u, by rw [heq, Option.some.inj h]⟩
  · simp at h

/-! ### Parts of a heap -/

/-- Every object of `H` is the same in `H'`. -/
def Sub (H H' : Heap) : Prop := ∀ p o, H.obj? p = some o → H'.obj? p = some o

theorem Sub.refl : H.Sub H := fun _ _ h => h

theorem Sub.trans (h : H.Sub H') (h' : H'.Sub H'') : H.Sub H'' := fun p o hp => h' p o (h p o hp)

theorem Sub.none (h : H.Sub H') (hp : H'.obj? p = none) : H.obj? p = none := by
  cases hp' : H.obj? p with
  | none => rfl
  | some o => rw [h p o hp'] at hp; simp at hp

theorem Sub.type? (h : H.Sub H') (hp : H.type? p = some t) : H'.type? p = some t := by
  cases p with
  | char c => exact hp
  | obj a =>
    obtain ⟨o, ho, rfl⟩ := Option.map_eq_some_iff.mp hp
    exact type?_of_obj? (h (.obj a) o ho)

theorem Sub.car? (h : H.Sub H') (hp : H.car? p = some q) : H'.car? p = some q := by
  obtain ⟨t, u, ho⟩ := obj?_of_car? hp
  exact car?_of_obj? (h p _ ho)

theorem Sub.cdr? (h : H.Sub H') (hp : H.cdr? p = some q) : H'.cdr? p = some q := by
  unfold Heap.cdr? at hp
  split at hp
  · next t a u heq => rw [cdr?_of_obj? (h p _ heq), hp]
  · simp at hp

theorem Sub.symbolVal? {s : List Char} (h : H.Sub H') (hp : H.symbolVal? p = some s) :
    H'.symbolVal? p = some s := by
  unfold Heap.symbolVal? at hp
  split at hp
  · next t str heq => rw [Heap.symbolVal?, h p _ heq]; exact hp
  · simp at hp

theorem Sub.cpdProc? {u : Ptr × Ptr × Ptr} (h : H.Sub H') (hp : H.cpdProc? p = some u) :
    H'.cpdProc? p = some u := by
  unfold Heap.cpdProc? at hp
  split at hp
  · next t paras body env heq => rw [Heap.cpdProc?, h p _ heq]; exact hp
  · simp at hp

theorem Spine.sub {xs : List Ptr} (hp : H.Spine p xs q) (h : H.Sub H') : H'.Spine p xs q := by
  induction xs generalizing p with
  | nil => exact hp
  | cons x xs ih =>
    obtain ⟨hpair, hcar, r, hcdr, hr⟩ := hp
    exact ⟨h.type? hpair, h.car? hcar, r, h.cdr? hcdr, ih hr⟩

/-! ### One more object -/

/-- The heap with the object `o` at `p`. -/
def insert (H : Heap) (p : Ptr) (o : Obj) : Heap :=
  match p with
  | .char _ => H
  | .obj a => Function.update H a (some o)

theorem obj?_insert_self {o' : Obj} (h : H'.obj? p = some o') :
    (H.insert p o).obj? p = some o := by
  cases p with
  | char c => simp [obj?] at h
  | obj a => exact Function.update_self _ _ _

theorem obj?_insert_of_ne (h : q ≠ p) : (H.insert p o).obj? q = H.obj? q := by
  cases p with
  | char c => rfl
  | obj a =>
    cases q with
    | char c => rfl
    | obj b => exact Function.update_of_ne (fun hab => h (congrArg Ptr.obj hab)) _ _

/-- A heap with one more object is part of another when that has the object and the rest. -/
theorem insert_sub (h : H.Sub H') (hp : H'.obj? p = some o) : (H.insert p o).Sub H' := by
  intro q o' hq
  by_cases hqp : q = p
  · subst hqp
    exact hp.trans ((obj?_insert_self hp).symm.trans hq)
  · exact h q o' (by rwa [obj?_insert_of_ne hqp] at hq)

theorem sub_insert (h : H.obj? p = Option.none) : H.Sub (H.insert p o) := by
  intro q o' hq
  rw [obj?_insert_of_ne, hq]
  rintro rfl
  simp [h] at hq

end Heap

namespace Memory

variable {m m' : Memory} {p q : Ptr} {o : Obj} {t : SchemeType}

/-- All objects of the memory. -/
def heap (m : Memory) : Heap := fun a => m.objs[a]?

/-- The pointer one past the last object, the next one to be allocated. -/
def fresh (m : Memory) : Ptr := .obj m.objs.length

/-- The memory with a new object. -/
def push (m : Memory) (o : Obj) : Memory := { m with objs := m.objs ++ [o] }

/-- The memory with the object `p` changed. -/
def modify (m : Memory) (p : Ptr) (f : Obj → Obj) : Memory :=
  match p with
  | .char _ => m
  | .obj a => { m with objs := m.objs.modify a f }

@[simp] theorem obj?_push_fresh : (m.push o).heap.obj? m.fresh = some o := by
  simp [heap, Heap.obj?, push, fresh]

theorem obj?_fresh : m.heap.obj? m.fresh = none := by simp [heap, Heap.obj?, fresh]

theorem heap_push : m.heap.Sub (m.push o).heap := by
  intro p o' h
  cases p with
  | char c => exact h
  | obj a =>
    have hlt : a < m.objs.length := (List.getElem?_eq_some_iff.mp h).1
    simpa [heap, Heap.obj?, push, List.getElem?_append_left hlt] using h

theorem ne_fresh (h : m.heap.obj? p = some o) : p ≠ m.fresh := by
  rintro rfl
  simp [obj?_fresh] at h

theorem obj?_modify_self {f : Obj → Obj} (h : m.heap.obj? p = some o) :
    (m.modify p f).heap.obj? p = some (f o) := by
  cases p with
  | char c => simp [Heap.obj?] at h
  | obj a => simp only [Heap.obj?, heap] at h; simp [Heap.obj?, heap, modify, h]

theorem obj?_modify_of_ne {f : Obj → Obj} (h : q ≠ p) :
    (m.modify p f).heap.obj? q = m.heap.obj? q := by
  cases p with
  | char c => rfl
  | obj a =>
    cases q with
    | char c => rfl
    | obj b =>
      have hab : a ≠ b := fun hab => h (hab ▸ rfl)
      simp [Heap.obj?, heap, modify, hab]

@[simp] theorem bindings_push : (m.push o).bindings = m.bindings := rfl

@[simp] theorem blocks_push : (m.push o).blocks = m.blocks := rfl

@[simp] theorem bindings_modify {f : Obj → Obj} : (m.modify p f).bindings = m.bindings := by
  cases p <;> rfl

@[simp] theorem blocks_modify {f : Obj → Obj} : (m.modify p f).blocks = m.blocks := by
  cases p <;> rfl

end Memory

/-! ## Computations -/

/-- A computation on the memory, which fails where the C code does something undefined. -/
abbrev Comp := StateT Memory Option

/-- What a computation reads of the memory. -/
def readMem {α : Type} (f : Memory → Option α) : Comp α := fun m => (f m).map (·, m)

theorem run_readMem {α : Type} {f : Memory → Option α} {m : Memory} {a : α} (h : f m = some a) :
    (readMem f).run m = some (a, m) := by
  simp [readMem, StateT.run, h]

theorem run_liftM {α : Type} {k : Option α} {m : Memory} {a : α} (h : k = some a) :
    (liftM k : Comp α).run m = some (a, m) := by
  subst h
  rfl

/-- `SCHEME_TYPE` -/
def schemeType (p : Ptr) : Comp SchemeType := readMem fun m => m.heap.type? p

/-- `SCHEME_CAR` -/
def schemeCar (p : Ptr) : Comp Ptr := readMem fun m => m.heap.car? p

/-- `SCHEME_CDR` -/
def schemeCdr (p : Ptr) : Comp Ptr := readMem fun m => m.heap.cdr? p

/-- `SCHEME_SYMBOL_VAL` -/
def schemeSymbolVal (p : Ptr) : Comp (List Char) := readMem fun m => m.heap.symbolVal? p

/-- `SCHEME_PROC_PARAS`, `SCHEME_PROC_BODY` and `SCHEME_PROC_ENV` -/
def schemeProc (p : Ptr) : Comp (Ptr × Ptr × Ptr) := readMem fun m => m.heap.cpdProc? p

/-- `SCHEME_PRIM_FUN`, `SCHEME_PRIM_MINA` and `SCHEME_PRIM_MAXA` -/
def schemePrim (p : Ptr) : Comp (ℕ × ℤ × ℤ) := readMem fun m => m.heap.primProc? p

/-- `scheme_alloc_obj`, with the assignments after it that fill the new object in. -/
def schemeAllocObj (o : Obj) : Comp Ptr := fun m => some (m.fresh, m.push o)

/-- `SCHEME_SET_TYPE` -/
def schemeSetType (p : Ptr) (t : SchemeType) : Comp Unit := fun m =>
  (m.heap.obj? p).map fun _ => ((), m.modify p fun o => { o with type := t })

/-- `SCHEME_SET_CDR` on an object that holds a pair. -/
def schemeSetCdr (p q : Ptr) : Comp Unit := fun m =>
  (m.heap.car? p).map fun car => ((), m.modify p fun o => { o with u := .pair car (some q) })

/-- `scheme_make_pair` -/
def schemeMakePair (car cdr : Ptr) : Comp Ptr := schemeAllocObj ⟨.pair, .pair car (some cdr)⟩

section Run

variable {m : Memory} {p q : Ptr} {o : Obj} {t : SchemeType}

theorem run_schemeType (h : m.heap.type? p = some t) : (schemeType p).run m = some (t, m) :=
  run_readMem h

theorem run_schemeCar (h : m.heap.car? p = some q) : (schemeCar p).run m = some (q, m) :=
  run_readMem h

theorem run_schemeCdr (h : m.heap.cdr? p = some q) : (schemeCdr p).run m = some (q, m) :=
  run_readMem h

theorem run_schemeSymbolVal {s : List Char} (h : m.heap.symbolVal? p = some s) :
    (schemeSymbolVal p).run m = some (s, m) :=
  run_readMem h

theorem run_schemeProc {u : Ptr × Ptr × Ptr} (h : m.heap.cpdProc? p = some u) :
    (schemeProc p).run m = some (u, m) :=
  run_readMem h

theorem run_schemeAllocObj : (schemeAllocObj o).run m = some (m.fresh, m.push o) := rfl

theorem run_schemeMakePair :
    (schemeMakePair p q).run m = some (m.fresh, m.push ⟨.pair, .pair p (some q)⟩) := rfl

theorem run_schemeSetType (h : m.heap.obj? p = some o) :
    (schemeSetType p t).run m = some ((), m.modify p fun o => { o with type := t }) := by
  simp [schemeSetType, StateT.run, h]

theorem run_schemeSetCdr {a : Ptr} (h : m.heap.car? p = some a) :
    (schemeSetCdr p q).run m = some ((), m.modify p fun o => { o with u := .pair a (some q) }) := by
  simp [schemeSetCdr, StateT.run, h]

end Run

end SchemeOs
