import SchemeOs.Interpreter.Eval
import SchemeOs.Machinery.Ints
import SchemeOs.Machinery.Traced
import SchemeOs.Strings.Compare

/-!
# Interpreter/Builtins — the primitives and their argument vectors

`scheme_apply_prim_proc` copies the elements of a list into a vector, compares their number with the
bounds that the primitive was registered with, and calls the function.  Nothing else guards the
vector: each function reads the words that it wants.  Here those reads, and the call, are events of
a trace.
-/

namespace SchemeOs

/-- What is traced: the call of the function, and reads of `argv[k]`. -/
inductive Event where
  | call
  | argv (k : ℕ)
  deriving DecidableEq, Repr

abbrev Body := Traced Event Memory

/-- A function for a primitive, from fuel for its loops, `argc` and the words from `argv` on. -/
abbrev Builtin := ℕ → ℕ → (ℕ → Ptr) → Body Ptr

/-- What the primitives take from elsewhere.  `stale` is what a new object holds before anything is
assigned to it. -/
structure Callees where
  currentInputPort : Ptr
  currentOutputPort : Ptr
  getChar : Ptr → Comp Char
  peekChar : Ptr → Comp Char
  readForm : ℕ → Ptr → Comp Ptr
  makeSymbol : List Char → Comp Ptr
  binaryDbl : Char → Ptr → Ptr → Comp Unit
  stale : Memory → Obj

namespace Builtins

open Traced (lift)

/-! ## Objects

Shared by the primitives below: reading an argument, and making or changing an object. -/

/-- `argv[k]` -/
def arg (argv : ℕ → Ptr) (k : ℕ) : Body Ptr := do
  Traced.emit (.argv k)
  return argv k

/-- `*p` -/
def schemeObj (p : Ptr) : Comp Obj := readMem fun m => m.heap.obj? p

/-- `*p = o` -/
def schemeAssign (p : Ptr) (o : Obj) : Comp Unit := fun m =>
  (m.heap.obj? p).map fun _ => ((), m.modify p fun _ => o)

/-- `SCHEME_SET_CAR` on an object that holds a pair. -/
def schemeSetCar (p q : Ptr) : Comp Unit := do
  match ← schemeObj p with
  | ⟨t, .pair _ cdr⟩ => schemeAssign p ⟨t, .pair q cdr⟩
  | _ => failure

/-- `SCHEME_INT_VAL` -/
def schemeIntVal (p : Ptr) : Comp ℤ := do
  match ← schemeObj p with
  | ⟨_, .int val⟩ => return val
  | _ => failure

/-- `SCHEME_STR_VAL`, with `SCHEME_STR_LEN` as its length. -/
def schemeStrVal (p : Ptr) : Comp (List Char) := do
  match ← schemeObj p with
  | ⟨_, .str str⟩ => return str
  | _ => failure

/-- `b ? scheme_true: scheme_false` -/
def schemeBool (b : Bool) : Ptr := if b then schemeTrue else schemeFalse

/-- The characters of a string up to the first NUL. -/
def upToNul (str : List Char) : List Char := str.takeWhile (· ≠ '\x00')

variable (ext : Callees)

/-! ## Environments and ports

A port is a parameter: what its functions do when a primitive calls them is no part of the model. -/

def schemeReportEnvironment : Builtin := fun _ _ _ => return schemeGlobalEnvironment

def nullEnvironment : Builtin := fun _ _ _ => return schemeNull

def interactionEnvironment : Builtin := fun _ _ _ => return schemeGlobalEnvironment

def read : Builtin := fun n argc argv => do
  let port ← if argc = 0 then pure ext.currentInputPort else arg argv 0
  lift (ext.readForm n port)

def readChar : Builtin := fun _ _ argv => do
  let port ← arg argv 0
  return .char (← lift (ext.getChar port))

def peekChar : Builtin := fun _ _ argv => do
  let port ← arg argv 0
  return .char (← lift (ext.peekChar port))

def eofObjectP : Builtin := fun _ _ argv => do
  let port ← arg argv 0
  return schemeBool ((← lift (ext.peekChar port)) = '\xff')

def charReadyP : Builtin := fun _ _ _ => return schemeTrue

/-- A predicate that looks at the type of its argument. -/
def typeP (p : SchemeType → Bool) : Builtin := fun _ _ argv => do
  let obj ← arg argv 0
  return schemeBool (p (← lift (schemeType obj)))

def inputPortP : Builtin := typeP fun t => t = .inputPort

def outputPortP : Builtin := typeP fun t => t = .outputPort

def currentInputPort : Builtin := fun _ _ _ => return ext.currentInputPort

def currentOutputPort : Builtin := fun _ _ _ => return ext.currentOutputPort

/-- A function that ends without a value. -/
def noReturn : Builtin := fun _ _ _ => lift failure

def withInputFromFile : Builtin := noReturn

def withOutputToFile : Builtin := noReturn

def openInputFile : Builtin := noReturn

def openOutputFile : Builtin := noReturn

def closeInputPort : Builtin := noReturn

def closeOutputPort : Builtin := noReturn

/-! ## Booleans and symbols -/

def booleanP : Builtin := fun _ _ argv => do
  let obj ← arg argv 0
  return schemeBool (obj = schemeTrue ∨ obj = schemeFalse)

def trueP : Builtin := fun _ _ argv => do
  let obj ← arg argv 0
  return schemeBool (obj ≠ schemeFalse)

def not : Builtin := fun _ _ argv => do
  let obj ← arg argv 0
  return schemeBool (obj = schemeFalse)

def symbolP : Builtin := typeP fun t => t = .symbol

def eqP : Builtin := fun _ _ argv => do
  let a ← arg argv 0
  let b ← arg argv 1
  return schemeBool (a = b)

def symbolToString : Builtin := fun _ _ argv => do
  let sym ← arg argv 0
  let chars ← lift (schemeSymbolVal sym)
  lift (schemeAllocObj ⟨.string, .str (upToNul chars)⟩)

def stringToSymbol : Builtin := fun _ _ argv => do
  let str ← arg argv 0
  let chars ← lift (schemeStrVal str)
  lift (ext.makeSymbol chars)

/-! ## Numbers

Arithmetic on doubles is a parameter.  The operations on integers go from the left to the right,
and write into one new object. -/

def numberP : Builtin :=
  typeP fun t => SchemeType.number.ctorIdx < t.ctorIdx ∧ t.ctorIdx < SchemeType.numberType.ctorIdx

def realP : Builtin := typeP fun t => t = .double

def rationalP : Builtin := typeP fun t => t = .rational

def integerP : Builtin := typeP fun t => t = .integer

def exactP : Builtin := fun _ _ _ => return schemeTrue

def inexactP : Builtin := fun _ _ _ => return schemeFalse

/-- `a op b` for two `int`s; a quotient need not exist. -/
def intOp (op : Char) (a b : ℤ) : Comp ℤ :=
  if op = '+' then return toInt (a + b)
  else if op = '-' then return toInt (a - b)
  else if op = '*' then return toInt (a * b)
  else if b = 0 ∨ a = -2 ^ 31 ∧ b = -1 then failure
  else return a.tdiv b

/-- `_BINARY_OP`: nothing happens for operands of two types. -/
def binaryOp (op : Char) (a b : Ptr) : Comp Unit := do
  let t ← schemeType a
  if t ≠ (← schemeType b) then
    return
  else if t = .integer then
    let val ← intOp op (← schemeIntVal a) (← schemeIntVal b)
    schemeAssign a ⟨.integer, .int val⟩
  else if t = .double then
    ext.binaryDbl op a b
  else
    return

/-- `while (argc-- > 0) { _BINARY_OP(op, rslt, *p); p++; }`, with `p` at `argv[k]`. -/
def fold (op : Char) (argv : ℕ → Ptr) (rslt : Ptr) : ℕ → ℕ → Body Ptr
  | 0, _ => return rslt
  | argc + 1, k => do
    let obj ← arg argv k
    lift (binaryOp ext op rslt obj)
    fold op argv rslt argc (k + 1)

def addition : Builtin := fun _ argc argv => do
  let rslt ← lift (schemeAllocObj ⟨.integer, .int 0⟩)
  fold ext '+' argv rslt argc 0

def multiplication : Builtin := fun _ argc argv => do
  let rslt ← lift (schemeAllocObj ⟨.integer, .int 1⟩)
  fold ext '*' argv rslt argc 0

/-- `subtraction` and `divison`: with one argument they start from `unit`, else from a copy of the
first.  Without arguments `argc` gets negative, and the loop is not entered. -/
def foldRest (op : Char) (unit : ℤ) : Builtin := fun _ argc argv => do
  if argc = 1 then
    let rslt ← lift (schemeAllocObj ⟨.integer, .int unit⟩)
    fold ext op argv rslt argc 0
  else
    let obj ← arg argv 0
    let rslt ← lift (do schemeAllocObj (← schemeObj obj))
    fold ext op argv rslt (argc - 1) 1

def subtraction : Builtin := foldRest ext '-' 0

def divison : Builtin := foldRest ext '/' 1

/-! ## Strings -/

/-- A function that only returns `scheme_void`. -/
def returnVoid : Builtin := fun _ _ _ => return schemeVoid

def makeString : Builtin := fun _ argc argv => do
  let size ← arg argv 0
  if (← lift (schemeType size)) ≠ .integer then
    return schemeVoid
  else if argc = 1 then
    makeFilled size 'a'
  else
    let obj ← arg argv 1
    match obj with
    | .char fill => makeFilled size fill
    | .obj _ => return schemeVoid
where
  /-- `memset` writes over what is behind the block, for four characters or more, and over
  everything for a negative number. -/
  makeFilled (size : Ptr) (fill : Char) : Body Ptr := do
    let k ← lift (schemeIntVal size)
    if k < 0 ∨ 4 ≤ k then
      lift failure
    else
      lift (schemeAllocObj ⟨.string, .str (List.replicate k.toNat fill)⟩)

/-- The loop of `string` with `argv` at `argv[k]`, after the characters `str`.  Where an argument is
not a character, `str` is given back; it is no longer what `scheme_alloc` returned, unless nothing
has been written. -/
def stringFrom (argv : ℕ → Ptr) (strObj : Ptr) : ℕ → ℕ → List Char → Body Ptr
  | 0, _, str => do
    lift (schemeAssign strObj ⟨.string, .str str⟩)
    return strObj
  | argc + 1, k, str => do
    let obj ← arg argv k
    match obj with
    | .char c => stringFrom argv strObj argc (k + 1) (str ++ [c])
    | .obj _ => if str = [] then return schemeVoid else lift failure

def string : Builtin := fun _ argc argv => do
  let strObj ← lift (schemeAllocObj ⟨.string, .str []⟩)
  stringFrom argv strObj argc 0 []

def stringP : Builtin := typeP fun t => t = .string

/-- The type of the new object is not set. -/
def stringLength : Builtin := fun _ _ argv => do
  let obj ← arg argv 0
  let str ← lift (schemeStrVal obj)
  let m ← lift get
  lift (schemeAllocObj ⟨(ext.stale m).type, .int str.length⟩)

def stringRef : Builtin := fun _ _ argv => do
  let idx ← lift (schemeIntVal (← arg argv 1))
  let str ← lift (schemeStrVal (← arg argv 0))
  if idx < str.length then
    if idx < 0 then lift failure else return .char (str.getD idx.toNat '\x00')
  else
    return schemeVoid

def stringSet : Builtin := fun _ _ argv => do
  let idx ← lift (schemeIntVal (← arg argv 1))
  let obj ← arg argv 0
  let str ← lift (schemeStrVal obj)
  if idx < str.length then
    match ← arg argv 2 with
    | .char c =>
      if idx < 0 then
        lift failure
      else
        lift (schemeAssign obj ⟨.string, .str (str.set idx.toNat c)⟩)
        return schemeVoid
    | .obj _ => lift failure
  else
    return schemeVoid

def stringEq : Builtin := fun _ _ argv => do
  let a ← lift (schemeStrVal (← arg argv 0))
  let b ← lift (schemeStrVal (← arg argv 1))
  return schemeBool (Strings.strcmp a b = 0)

def stringCiEq : Builtin := fun _ _ argv => do
  let a ← lift (schemeStrVal (← arg argv 0))
  let b ← lift (schemeStrVal (← arg argv 1))
  return schemeBool (Strings.strcasecmp a b = 0)

def stringLt : Builtin := returnVoid

def stringGt : Builtin := returnVoid

def stringLtEq : Builtin := returnVoid

def stringGtEq : Builtin := returnVoid

def stringCiLt : Builtin := returnVoid

def stringCiGt : Builtin := returnVoid

def stringCiLtEq : Builtin := returnVoid

def stringCiGtEq : Builtin := returnVoid

def substring : Builtin := returnVoid

def stringAppend : Builtin := returnVoid

def stringToList : Builtin := returnVoid

def listToString : Builtin := returnVoid

/-- Only the length of the new object is set. -/
def stringCopy : Builtin := fun _ _ argv => do
  let obj ← arg argv 0
  if (← lift (schemeType obj)) ≠ .string then
    return schemeVoid
  else
    let _ ← lift (schemeStrVal obj)
    let m ← lift get
    lift (schemeAllocObj (ext.stale m))

def stringFill : Builtin := returnVoid

/-! ## Lists

`append` and `list` link each new pair to the last one, as `_analyze` does with its sequences. -/

def cons : Builtin := fun _ _ argv => do
  let car ← arg argv 0
  let cdr ← arg argv 1
  lift (schemeMakePair car cdr)

def car : Builtin := fun _ _ argv => do lift (schemeCar (← arg argv 0))

def cdr : Builtin := fun _ _ argv => do lift (schemeCdr (← arg argv 0))

def setCar : Builtin := fun _ _ argv => do
  let obj ← arg argv 0
  let val ← arg argv 1
  lift (schemeSetCar obj val)
  return schemeVoid

def setCdr : Builtin := fun _ _ argv => do
  let obj ← arg argv 0
  let val ← arg argv 1
  lift (schemeSetCdr obj val)
  return schemeVoid

def nullP : Builtin := fun _ _ argv => do
  let obj ← arg argv 0
  return schemeBool (obj = schemeNull)

/-- The pairs from `p` on: their number, and what comes after them. -/
def walk : ℕ → ℕ → Ptr → Comp (ℕ × Ptr)
  | 0, _, _ => failure
  | n + 1, len, p => do
    if (← schemeType p) = .pair then
      walk n (len + 1) (← schemeCdr p)
    else
      return (len, p)

def listP : Builtin := fun n _ argv => do
  let t ← arg argv 0
  let r ← lift (walk n 0 t)
  return schemeBool (r.2 = schemeNull)

/-- The loop of `list` with `argv` at `argv[k]`; the cdr of the last pair is not set. -/
def listFrom (argv : ℕ → Ptr) : ℕ → ℕ → Ptr → Ptr → Body Ptr
  | 0, _, l, _ => return l
  | argc + 1, k, l, q => do
    let obj ← arg argv k
    let p ← lift (schemeAllocObj ⟨.pair, .pair obj none⟩)
    if l = schemeNull then
      listFrom argv argc (k + 1) p p
    else
      lift (schemeSetCdr q p)
      listFrom argv argc (k + 1) l p

def list : Builtin := fun _ argc argv => listFrom argv argc 0 schemeNull schemeNull

def length : Builtin := fun n _ argv => do
  let l ← arg argv 0
  let r ← lift (walk n 0 l)
  if r.2 ≠ schemeNull then
    return schemeVoid
  else
    lift (schemeAllocObj ⟨.integer, .int r.1⟩)

/-- The part of the loop of `append` from `_append_last_list` on: `p` comes after the last pair `q`
of `l`; the result is the new `l`. -/
def link (l q p : Ptr) : Comp Ptr :=
  if l = schemeNull then
    return p
  else do
    schemeSetCdr q p
    return l

/-- `*p = *s; s = SCHEME_CDR(s);` for a new `p`, whatever `s` is, and then `p` is linked: the new
`l`, `p` and `s`. -/
def copyCell (l q s : Ptr) : Comp (Ptr × Ptr × Ptr) := do
  let p ← schemeAllocObj (← schemeObj s)
  let s ← schemeCdr s
  return (← link l q p, p, s)

/-- The loop of `append` with `argv` at `argv[k]`. -/
def appendFrom (argv : ℕ → Ptr) : ℕ → ℕ → ℕ → Ptr → Ptr → Ptr → Body Ptr
  | 0, _, _, _, _, _ => lift failure
  | n + 1, argc, k, l, q, s =>
    if argc ≤ 1 then
      return l
    else do
      if (← lift (schemeType s)) = .pair then
        let (l, q, s) ← lift (copyCell l q s)
        appendFrom argv n argc k l q s
      else if s ≠ schemeNull then
        return schemeVoid
      else
        -- the first time `argv` is still at the list that has just ended
        let s ← arg argv k
        if argc - 1 ≤ 1 then
          let l ← lift (link l q s)
          appendFrom argv n (argc - 1) (k + 1) l s s
        else
          let (l, q, s) ← lift (copyCell l q s)
          appendFrom argv n (argc - 1) (k + 1) l q s

def append : Builtin := fun n argc argv => do
  let s ← arg argv 0
  appendFrom argv n argc 0 schemeNull schemeNull s

/-- The result is a variable that nothing is assigned to. -/
def reverse : Builtin := noReturn

end Builtins

/-! ## The primitives

The tables of names, functions and numbers of arguments that the `scheme_init_` functions register.
-/

/-- What a call of `scheme_register_primitive` says. -/
structure Primitive where
  name : String
  builtin : Callees → Builtin
  mina : ℤ
  maxa : ℤ

namespace Primitive

open Builtins

/-- `scheme_init_env` -/
def schemeInitEnv : List Primitive :=
  [⟨"scheme-report-environment", fun _ => schemeReportEnvironment, 1, 1⟩,
   ⟨"null-environment", fun _ => nullEnvironment, 1, 1⟩,
   ⟨"interaction-environment", fun _ => interactionEnvironment, 0, 0⟩]

/-- `scheme_init_read` -/
def schemeInitRead : List Primitive :=
  [⟨"read", read, 0, 1⟩, ⟨"read-char", readChar, 0, 1⟩, ⟨"peek-char", peekChar, 0, 1⟩,
   ⟨"eof-object?", eofObjectP, 1, 1⟩, ⟨"char-ready?", fun _ => charReadyP, 0, 1⟩]

/-- `scheme_init_port` -/
def schemeInitPort : List Primitive :=
  [⟨"input-port?", fun _ => inputPortP, 1, 1⟩, ⟨"output-port?", fun _ => outputPortP, 1, 1⟩,
   ⟨"current-input-port", currentInputPort, 0, 0⟩,
   ⟨"current-output-port", currentOutputPort, 0, 0⟩,
   ⟨"with-input-from-file", fun _ => withInputFromFile, 1, 1⟩,
   ⟨"with-output-to-file", fun _ => withOutputToFile, 1, 1⟩,
   ⟨"open-input-file", fun _ => openInputFile, 1, 1⟩,
   ⟨"open-output-file", fun _ => openOutputFile, 1, 1⟩,
   ⟨"close-input-port", fun _ => closeInputPort, 1, 1⟩,
   ⟨"close-output-port", fun _ => closeOutputPort, 1, 1⟩]

/-- `scheme_init_bool` -/
def schemeInitBool : List Primitive :=
  [⟨"boolean?", fun _ => booleanP, 1, 1⟩, ⟨"true?", fun _ => trueP, 1, 1⟩,
   ⟨"not", fun _ => Builtins.not, 1, 1⟩]

/-- `scheme_init_number` -/
def schemeInitNumber : List Primitive :=
  [⟨"number?", fun _ => numberP, 1, 1⟩, ⟨"real?", fun _ => realP, 1, 1⟩,
   ⟨"rational?", fun _ => rationalP, 1, 1⟩, ⟨"integer?", fun _ => integerP, 1, 1⟩,
   ⟨"exact?", fun _ => exactP, 1, 1⟩, ⟨"inexact?", fun _ => inexactP, 1, 1⟩,
   ⟨"+", addition, 0, -1⟩, ⟨"-", subtraction, 0, -1⟩, ⟨"*", multiplication, 0, -1⟩,
   ⟨"/", divison, 1, -1⟩]

/-- `scheme_init_string` -/
def schemeInitString : List Primitive :=
  [⟨"make-string", fun _ => makeString, 1, 2⟩, ⟨"string", fun _ => string, 1, -1⟩,
   ⟨"string?", fun _ => stringP, 1, 1⟩, ⟨"string-length", stringLength, 1, 1⟩,
   ⟨"string-ref", fun _ => stringRef, 2, 2⟩, ⟨"string-set!", fun _ => stringSet, 3, 3⟩,
   ⟨"string=?", fun _ => stringEq, 2, 2⟩, ⟨"string-ci=?", fun _ => stringCiEq, 2, 2⟩,
   ⟨"string<?", fun _ => stringLt, 2, 2⟩, ⟨"string>?", fun _ => stringGt, 2, 2⟩,
   ⟨"string<=?", fun _ => stringLtEq, 2, 2⟩, ⟨"string>=?", fun _ => stringGtEq, 2, 2⟩,
   ⟨"string-ci<?", fun _ => stringCiLt, 2, 2⟩, ⟨"string-ci>?", fun _ => stringCiGt, 2, 2⟩,
   ⟨"string-ci<=?", fun _ => stringCiLtEq, 2, 2⟩, ⟨"string-ci>=?", fun _ => stringCiGtEq, 2, 2⟩,
   ⟨"substring", fun _ => substring, 3, 3⟩, ⟨"string-append", fun _ => stringAppend, 1, -1⟩,
   ⟨"string->list", fun _ => stringToList, 1, 1⟩, ⟨"list->string", fun _ => listToString, 1, 1⟩,
   ⟨"string-copyt", stringCopy, 1, 1⟩, ⟨"string-fill", fun _ => stringFill, 2, 2⟩]

/-- `scheme_init_list` -/
def schemeInitList : List Primitive :=
  [⟨"cons", fun _ => cons, 2, 2⟩, ⟨"car", fun _ => car, 1, 1⟩, ⟨"cdr", fun _ => cdr, 1, 1⟩,
   ⟨"set-car!", fun _ => setCar, 2, 2⟩, ⟨"set-cdr!", fun _ => setCdr, 2, 2⟩,
   ⟨"null?", fun _ => nullP, 1, 1⟩, ⟨"list?", fun _ => listP, 1, 1⟩,
   ⟨"list", fun _ => list, 0, -1⟩, ⟨"length", fun _ => length, 1, 1⟩,
   ⟨"append", fun _ => append, 0, -1⟩, ⟨"reverse", fun _ => reverse, 1, 1⟩]

/-- `scheme_init_symbol`, which `scheme_init` does not call. -/
def schemeInitSymbol : List Primitive :=
  [⟨"symbol?", fun _ => symbolP, 1, 1⟩, ⟨"eq?", fun _ => eqP, 2, 2⟩,
   ⟨"symbol->string", fun _ => symbolToString, 1, 1⟩, ⟨"string->symbol", stringToSymbol, 1, 1⟩]

/-- The primitives that the kernel registers: those of `scheme_init`, in its order, and of
`scheme_init_symbol`. -/
def registered : List Primitive :=
  schemeInitEnv ++ schemeInitRead ++ schemeInitPort ++ schemeInitBool ++ schemeInitNumber ++
    schemeInitString ++ schemeInitList ++ schemeInitSymbol

/-- The words from `argv` on: the elements, and then those of `beyond`. -/
def words (args : List Ptr) (beyond : ℕ → Ptr) (k : ℕ) : Ptr := args.getD k (beyond k)

/-- `scheme_apply_prim_proc`; after the vector come the words `beyond`. -/
def schemeApplyPrimProc (ext : Callees) (beyond : ℕ → Ptr) (n : ℕ) (primProc arg : Ptr) :
    Body Ptr := do
  let argv ← Traced.lift (listElements n arg)
  let (builtin, mina, maxa) ← Traced.lift (schemePrim primProc)
  if 0 < maxa ∧ maxa < argv.length then
    return schemeVoid
  else if (argv.length : ℤ) < mina then
    return schemeVoid
  else
    Traced.emit .call
    match registered[builtin]? with
    | none => Traced.lift failure
    | some p => p.builtin ext n argv.length (words argv beyond)

end Primitive

end SchemeOs
