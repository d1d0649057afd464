import Mathlib
import SchemeOs.Compiler.Kept
import SchemeOs.Machinery.Runs

/-!
# Compiler/Machine — the virtual machine of `svm.h`

Each instruction does what the macros do that `instr2c` writes for it.  A position in the program is
the code from there to the end of the procedure, with the compile-time environment it was converted
in; leaving a block of a test goes on behind the test.  Labels are searched in the whole program.

Stack and object space do not run out.  Objects are named by data: a constant by the one that comes
back from the C file, which need not be the one it is declared from.  The builtin functions test no
types; what they make of other operands than they are for is not specified.  The environment of a
closure is the one in force when it was made.
-/

namespace SchemeOs.Compiler

/-- `Scheme_Template_t`: the code of a procedure, and the environment it was converted in. -/
structure Template where
  env : CompileTimeEnvt
  code : List Code

/-- `Scheme_Obj_t *`: a constant, a closure, or something unspecified: what a cell held before it
was written, what a builtin function makes of operands that it is not for, and an object with a
malformed text. -/
inductive Val where
  | const (d : Datum)
  | closure (t : Template) (envt : ℕ)
  | junk

/-- The object that the constant of the C file is. -/
def Val.ofConst (d : Datum) : Val :=
  match emitted d with
  | some d' => .const d'
  | none => .junk

/-- `Scheme_Cont_t`; the label of `scheme_return` is `none`. -/
structure Cont where
  pc : Option ℕ
  envt : ℕ
  template : Option Template
  stackTop : ℤ

/-- `Scheme_VM_t`, and the environments: the frame a frame is enclosed by, and its slots; `NULL` is
0. The stack grows downwards. -/
structure Svm where
  value : Val
  envt : ℕ
  cont : List Cont
  template : Option Template
  stack : ℤ → Val
  stackTop : ℤ
  stackBase : ℤ
  enclosing : ℕ → ℕ
  bindings : ℕ → ℕ → Val

/-- A position in the program, and the registers. -/
structure State where
  env : CompileTimeEnvt
  code : List Code
  svm : Svm

/-! ## Labels

A jump goes on with the code behind its label, wherever that is in the program. -/

/-- The environment that the body of a closure is converted in. -/
def bodyEnvt (env : CompileTimeEnvt) (formals : Formals) (body : List Code) : CompileTimeEnvt :=
  .envtFrame env (formals.names ++ scanForNewbind body)

mutual

/-- The position behind the label `l` in code that is followed by `k`. -/
def findLabel (l : ℕ) (env : CompileTimeEnvt) (k : List Code) :
    List Code → Option (CompileTimeEnvt × List Code)
  | [] => none
  | c :: cs => (findIn l env (cs ++ k) c).or (findLabel l env k cs)

/-- The position behind the label `l` in an instruction that is followed by `k`. -/
def findIn (l : ℕ) (env : CompileTimeEnvt) (k : List Code) :
    Code → Option (CompileTimeEnvt × List Code)
  | .label m => if m = l then some (env, k) else none
  | .ifTrue con alt => (findLabel l env k con).or (findLabel l env k alt)
  | .ifFalse con alt => (findLabel l env k con).or (findLabel l env k alt)
  | .makeClosure _ formals body => findLabel l (bodyEnvt env formals body) [] body
  | _ => none

end

/-! ## Instructions

One step for each instruction; the operands of `+`, `car` and `cdr` are not tested, as in the
source. -/

/-- `SCHEME_FALSEP`. -/
def falsep : Val → Bool
  | .const (.boolean false) => true
  | _ => false

/-- `createRef level`: the frame `level` links up from `envt`. -/
def createRef (enclosing : ℕ → ℕ) : ℕ → ℕ → ℕ
  | 0, envt => envt
  | level + 1, envt => enclosing (createRef enclosing level envt)

/-- `SCHEME_CAR`. -/
def schemeCar : Val → Val
  | .const (.list (d :: _)) => .const d
  | .const (.sExp (d :: _) _) => .const d
  | _ => .junk

/-- `SCHEME_CDR`. -/
def schemeCdr : Val → Val
  | .const (.list (_ :: ds)) => .const (.list ds)
  | .const (.sExp [_] last) => .const last
  | .const (.sExp (_ :: d :: ds) last) => .const (.sExp (d :: ds) last)
  | _ => .junk

/-- The sum of the operands from `top` on, in 31 bits; `none` if they are not all integers. -/
def sumStack (stack : ℤ → Val) (top : ℤ) : ℕ → Option ℤ
  | 0 => some 0
  | argc + 1 =>
    match stack (top + argc), sumStack stack top argc with
    | .const (.number a), some b => some (Int.bmod (a + b) (2 ^ 31))
    | _, _ => none

/-- What `builtin_add` makes of the words of its operands. -/
def sumVal : Option ℤ → Val
  | some n => .const (.number n)
  | none => .junk

/-- The builtin functions that `builtin.h` declares; `builtin_add` takes its operands off the stack
itself. -/
def callBuiltin (s : List Char) (argc : ℕ) (m : Svm) : Option Svm :=
  if s = ['c', 'a', 'r'] then some { m with value := schemeCar (m.stack m.stackTop) }
  else if s = ['c', 'd', 'r'] then some { m with value := schemeCdr (m.stack m.stackTop) }
  else if s = ['+'] then
    if argc = 0 then some { m with value := .const (.number 0) }
    else
      let v := sumVal (sumStack m.stack m.stackTop argc)
      some { m with
        value := v
        stack := Function.update m.stack m.stackTop v
        stackTop := m.stackTop + argc }
  else if s = ['d', 'i', 's', 'p', 'l', 'a', 'y'] then some m
  else none

/-- `push_continuation`. -/
def Svm.pushContinuation (m : Svm) (pc : Option ℕ) : Svm :=
  { m with cont := ⟨pc, m.envt, m.template, m.stackTop⟩ :: m.cont }

/-- `svm_push`. -/
def Svm.push (m : Svm) : Svm :=
  { m with stack := Function.update m.stack (m.stackTop - 1) m.value, stackTop := m.stackTop - 1 }

/-- `BIND_VAR(g_svm.reg_envt, offset)`. -/
def Svm.bindVar (m : Svm) (offset : ℕ) : Svm :=
  { m with bindings :=
      Function.update m.bindings m.envt (Function.update (m.bindings m.envt) offset m.value) }

theorem Val.ofConst_of_kept {d : Datum} (h : Kept d) : Val.ofConst d = .const d := by
  rw [Val.ofConst, (emitted_eq_iff d).mpr h]

/-- One instruction of the program `prog`. -/
def step (prog : List Code) (s : State) : Option State :=
  match s.code with
  | [] => none
  | .fetchConst d :: k => some ⟨s.env, k, { s.svm with value := .ofConst d }⟩
  | .makeClosure _ formals body :: k =>
    some ⟨s.env, k, { s.svm with
      value := .closure ⟨bodyEnvt s.env formals body, body⟩ s.svm.envt }⟩
  | .lookupVar x :: k =>
    (lookupvar x s.env).map fun a => ⟨s.env, k, { s.svm with
      value := s.svm.bindings (createRef s.svm.enclosing a.1 s.svm.envt) a.2 }⟩
  | .label _ :: k => some ⟨s.env, k, s.svm⟩
  | .newBind x :: k =>
    (lookupvarAtCurrentEnvt x s.env).map fun a => ⟨s.env, k, s.svm.bindVar a.2⟩
  | .reBind x :: k =>
    (lookupvarAtCurrentEnvt x s.env).map fun a => ⟨s.env, k, s.svm.bindVar a.2⟩
  | .leaveProc :: _ =>
    match s.svm.cont with
    | [] => none
    | c :: rest =>
      let m := { s.svm with envt := c.envt, template := c.template, cont := rest }
      match c.pc with
      | none => some ⟨s.env, [], m⟩   -- scheme_return
      | some l =>
        (findLabel l (topEnvt prog) [] prog).map fun p => ⟨p.1, p.2, m⟩
  | .apply :: _ =>
    match s.svm.value with
    | .closure t envt => some ⟨t.env, t.code, { s.svm with template := some t, envt := envt }⟩
    | _ => none
  | .callBuiltin (.sym f) argc :: k =>
    (callBuiltin f argc s.svm).map fun m => ⟨s.env, k, m⟩
  | .callBuiltin .nil _ :: _ => none
  | .pushCont l :: k => some ⟨s.env, k, s.svm.pushContinuation (some l)⟩
  | .push :: k => some ⟨s.env, k, s.svm.push⟩
  | .moveSp n :: k => some ⟨s.env, k, { s.svm with stackTop := s.svm.stackTop + n }⟩
  | .accStack n :: k =>
    if s.svm.stackBase ≤ s.svm.stackTop + n then none   -- assert(0)
    else some ⟨s.env, k, { s.svm with value := s.svm.stack (s.svm.stackTop + n) }⟩
  | .ifTrue con alt :: k =>
    some ⟨s.env, (if falsep s.svm.value then alt else con) ++ k, s.svm⟩
  | .ifFalse con alt :: k =>
    some ⟨s.env, (if falsep s.svm.value then con else alt) ++ k, s.svm⟩
  | .goto l :: _ =>
    (findLabel l (topEnvt prog) [] prog).map fun p => ⟨p.1, p.2, s.svm⟩
  | .blankLn :: k => some ⟨s.env, k, s.svm⟩
  | .nop :: k => some ⟨s.env, k, s.svm⟩

/-- `global_environment`. -/
def globalEnvironment : ℕ := 1

/-- The registers and the store that `scheme_init_all` leaves. -/
def Svm.init : Svm where
  value := .junk
  envt := globalEnvironment
  cont := []
  template := none
  stack := fun _ => .junk
  stackTop := 0
  stackBase := 0
  enclosing := fun _ => 0
  bindings := fun _ _ => .junk

/-- The start of the run code: the continuation `scheme_return` is pushed. -/
def State.init (prog : List Code) : State :=
  ⟨topEnvt prog, prog, Svm.init.pushContinuation none⟩

/-- A step, labelled with the state it is made in. -/
def Steps (prog : List Code) (s : State) (a : State) (t : State) : Prop :=
  a = s ∧ step prog s = some t

example : (step [.fetchConst (.number 1)] (.init [.fetchConst (.number 1)])).map
    (fun s => s.svm.value) = some (.const (.number 1)) := rfl

end SchemeOs.Compiler
