import SchemeOs.Compiler.Compile

/-!
# Compiler/Convert — from code to C

`Convert.hs` turns the code of a program into C.  A statement stands for the text of it: the object
that a constant declares, the address that a variable gets, the function of a closure.  Instructions
that the converter does not know, and variables that it does not find, give nothing; neither do
constants whose declaration needs more than `fuel` calls.
-/

namespace SchemeOs.Compiler

/-! ## Compile-time environments

A frame is the list of its variables, and an address is a frame and a position in it. -/

/-- `CompileTimeEnvt`. -/
inductive CompileTimeEnvt where
  | nullEnvt
  | envtFrame (enclosing : CompileTimeEnvt) (binds : List Sym)
  deriving DecidableEq, Repr

/-- `getBindings`. -/
def getBindings : CompileTimeEnvt → List Sym
  | .nullEnvt => []
  | .envtFrame _ binds => binds

/-- `lookupvar'`. -/
def lookupvar' (level : ℕ) (var : Sym) : CompileTimeEnvt → Option (ℕ × ℕ)
  | .nullEnvt => none   -- Unbound variable
  | .envtFrame enclosing binds =>
    match binds.idxOf? var with
    | some idx => some (level, idx)
    | none => lookupvar' (level + 1) var enclosing

/-- `lookupvar`. -/
def lookupvar (var : Sym) (envt : CompileTimeEnvt) : Option (ℕ × ℕ) := lookupvar' 0 var envt

/-- `lookupvarAtCurrentEnvt`, which has no equation for `NullEnvt`. -/
def lookupvarAtCurrentEnvt (var : Sym) : CompileTimeEnvt → Option (ℕ × ℕ)
  | .nullEnvt => none
  | .envtFrame _ binds => (binds.idxOf? var).map fun idx => (0, idx)

/-! ## Constants -/

/-- The object of the virtual machine that a constant stands for. -/
inductive Obj where
  | void
  | bool (b : Bool)
  | int (n : ℤ)
  | ascii (c : Char)
  | string (s : List Char)
  | symbol (s : List Char)
  | pair (car cdr : Obj)
  | null
  deriving DecidableEq, Repr

mutual

/-- `listToSExp`. -/
def listToSExp : Datum → Option Datum
  | .list ds => listTail ds
  | .sExp ds last => sExpTail last ds
  | atom => some atom

/-- `listToSExp` of a list with the elements `ds`. -/
def listTail : List Datum → Option Datum
  | [] => some (.list [])
  | d :: ds => do
    let car ← listToSExp d
    let cdr ← listTail ds
    return .sExp [car] cdr

/-- `listToSExp` of a dotted list with the elements `ds` before the dot. -/
def sExpTail (last : Datum) : List Datum → Option Datum
  | [] => none   -- wrong S-expr format
  | d :: ds =>
    if ds.isEmpty then some (.sExp [d] last)
    else do
      let car ← listToSExp d
      let cdr ← sExpTail last ds
      return .sExp [car] cdr

end

/-- `createConsts`. -/
def createConsts : ℕ → Datum → Option Obj
  | 0, _ => none
  | fuel + 1, d =>
    match d with
    | .void => some .void
    | .boolean b => some (.bool b)
    | .number n => some (.int n)
    | .character c => some (.ascii c)
    | .string s => some (.string s)
    | .symbol .nil => none
    | .symbol (.sym s) => some (.symbol s)
    | .sExp [car] cdr => do
      let carVar ← createConsts fuel car
      let cdrVar ← createConsts fuel cdr
      return .pair carVar cdrVar
    | .list [] => some .null
    | lst => (listToSExp lst).bind (createConsts fuel)

/-! ## Instructions

Each instruction becomes one statement; the body of a closure is converted in a frame of its own. -/

/-- A statement of the C program. -/
inductive Stmt where
  | setValue (o : Obj)
  | blank
  | push
  | label (l : ℕ)
  | leaveProc
  | applyProcedure
  | callBuiltin (fun_ : List Char) (argc : ℕ)
  | pushContinuation (l : ℕ)
  | goto (l : ℕ)
  | movesp (n : ℕ)
  | accessStack (n : ℕ)
  | ifTruep (con alt : List Stmt)
  | ifFalsep (con alt : List Stmt)
  | lookupVar (level offset : ℕ)
  | bindVar (level offset : ℕ)
  | makeClosure (name : List Char) (function : List Stmt)

/-- `scanForNewbind`. -/
def scanForNewbind (instrs : List Code) : List Sym :=
  instrs.flatMap fun
    | .newBind x => [x]
    | _ => []

mutual

/-- `instr2c`. -/
def instr2c (fuel : ℕ) (env : CompileTimeEnvt) : Code → Option Stmt
  | .fetchConst datum => (createConsts fuel datum).map .setValue
  | .blankLn => some .blank
  | .nop => some .blank
  | .push => some .push
  | .label l => some (.label l)
  | .leaveProc => some .leaveProc
  | .apply => some .applyProcedure
  | .callBuiltin (.sym fun_) argc => some (.callBuiltin fun_ argc)
  | .callBuiltin .nil _ => none
  | .pushCont l => some (.pushContinuation l)
  | .goto l => some (.goto l)
  | .moveSp n => some (.movesp n)
  | .accStack n => some (.accessStack n)
  | .ifTrue con alt => do
    let conCode ← convSequence fuel env con
    let altCode ← convSequence fuel env alt
    return .ifTruep conCode altCode
  | .ifFalse con alt => do
    let conCode ← convSequence fuel env con
    let altCode ← convSequence fuel env alt
    return .ifFalsep conCode altCode
  | .lookupVar var => (lookupvar var env).map fun a => .lookupVar a.1 a.2
  | .newBind var => (lookupvarAtCurrentEnvt var env).map fun a => .bindVar a.1 a.2
  | .reBind var => (lookupvarAtCurrentEnvt var env).map fun a => .bindVar a.1 a.2
  | .makeClosure (.sym name) (.args args) body =>
    (convSequence fuel (.envtFrame env (args ++ scanForNewbind body)) body).map (.makeClosure name)
  | .makeClosure .nil _ _ => none   -- Unsupported instrument
  | .makeClosure (.sym _) (.args2 _ _) _ => none

/-- `convSequence`. -/
def convSequence (fuel : ℕ) (env : CompileTimeEnvt) : List Code → Option (List Stmt)
  | [] => some []
  | instr :: instrs => do
    let c ← instr2c fuel env instr
    let cs ← convSequence fuel env instrs
    return c :: cs

end

/-- The environment of the top level in `convert`. -/
def topEnvt (instrs : List Code) : CompileTimeEnvt :=
  .envtFrame .nullEnvt (scanForNewbind instrs)

/-- `convert`: the statements of the run code. -/
def convert (fuel : ℕ) (instrs : List Code) : Option (List Stmt) :=
  convSequence fuel (topEnvt instrs) instrs

/-! ## Reading and assigning

Both look the variable up, but an assignment only in the current frame. -/

/-- The address in a statement that reads or binds a variable. -/
def Stmt.address : Stmt → Option (ℕ × ℕ)
  | .lookupVar level offset => some (level, offset)
  | .bindVar level offset => some (level, offset)
  | _ => none

/-- The address in the code of a reference to `x`. -/
def refAddress (env : CompileTimeEnvt) (x : Sym) : Option (ℕ × ℕ) :=
  (instr2c 0 env (.lookupVar x)).bind Stmt.address

/-- The address in the code of `(set! x e)`, which ends with `ReBind x`. -/
def setAddress (env : CompileTimeEnvt) (x : Sym) : Option (ℕ × ℕ) :=
  (instr2c 0 env (.reBind x)).bind Stmt.address

/-- Some frame binds `x`. -/
def CompileTimeEnvt.Binds (x : Sym) : CompileTimeEnvt → Prop
  | .nullEnvt => False
  | .envtFrame enclosing binds => x ∈ binds ∨ enclosing.Binds x

variable {env : CompileTimeEnvt} {x : Sym} {level : ℕ}

theorem refAddress_eq (env : CompileTimeEnvt) (x : Sym) : refAddress env x = lookupvar x env := by
  rw [refAddress, instr2c]
  cases lookupvar x env <;> rfl

theorem setAddress_eq (env : CompileTimeEnvt) (x : Sym) :
    setAddress env x = lookupvarAtCurrentEnvt x env := by
  rw [setAddress, instr2c]
  cases lookupvarAtCurrentEnvt x env <;> rfl

/-- A variable is found when some frame binds it, at the level searched or above. -/
theorem lookupvar'_isSome : (lookupvar' level x env).isSome ↔ env.Binds x := by
  induction env generalizing level with
  | nullEnvt => simp [lookupvar', CompileTimeEnvt.Binds]
  | envtFrame enclosing binds ih =>
    rw [lookupvar', CompileTimeEnvt.Binds]
    cases hidx : binds.idxOf? x with
    | none => simp [ih, List.idxOf?_eq_none_iff.mp hidx]
    | some idx =>
      have hmem : x ∈ binds := List.isSome_idxOf?.mp (by rw [hidx]; rfl)
      simp [hmem]

theorem lookupvarAtCurrentEnvt_isSome :
    (lookupvarAtCurrentEnvt x env).isSome ↔ x ∈ getBindings env := by
  cases env with
  | nullEnvt => simp [lookupvarAtCurrentEnvt, getBindings]
  | envtFrame enclosing binds =>
    rw [lookupvarAtCurrentEnvt, getBindings, Option.isSome_map, List.isSome_idxOf?]

/-- **Assignment and reference agree** on a variable exactly when the innermost frame binds it, or
no frame does. -/
theorem setAddress_eq_refAddress_iff (env : CompileTimeEnvt) (x : Sym) :
    setAddress env x = refAddress env x ↔ x ∈ getBindings env ∨ ¬ env.Binds x := by
  rw [setAddress_eq, refAddress_eq, lookupvar]
  cases env with
  | nullEnvt => simp [lookupvarAtCurrentEnvt, lookupvar', CompileTimeEnvt.Binds]
  | envtFrame enclosing binds =>
    rw [lookupvarAtCurrentEnvt, lookupvar', getBindings, CompileTimeEnvt.Binds]
    cases hidx : binds.idxOf? x with
    | some idx =>
      have hmem : x ∈ binds := List.isSome_idxOf?.mp (by rw [hidx]; rfl)
      simp [hmem]
    | none =>
      have hnot := List.idxOf?_eq_none_iff.mp hidx
      have houter : (lookupvar' 1 x enclosing).isSome ↔ _ := lookupvar'_isSome
      simp only [hnot, false_or, Option.map_none]
      cases hl : lookupvar' 1 x enclosing with
      | none => simpa [hl] using houter
      | some a => simpa [hl] using houter

/-- **The slip of `set!`**: a variable of an enclosing frame is read but not found when it is
assigned. -/
theorem setAddress_ne_refAddress_outer : ¬ ∀ env x, setAddress env x = refAddress env x :=
  fun h => absurd (h (.envtFrame (.envtFrame .nullEnvt [.sym ['x']]) []) (.sym ['x'])) (by decide)

end SchemeOs.Compiler
