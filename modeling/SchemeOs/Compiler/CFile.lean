import SchemeOs.Compiler.Convert
import SchemeOs.Machinery.Literals
import SchemeOs.Machinery.Numerals
import SchemeOs.Machinery.Traced

/-!
# Compiler/CFile — the C file that `convert` writes

The state of `Convert.hs`: the compile-time data and the parts of the C file.  An expression for an
object and a declaration of the data field are kept as what they are made of; `text` writes them.
The trace notes the labels that are given out, the expression returned for each datum, and each
instruction with the environment it is converted in and its code.
-/

namespace SchemeOs.Compiler

/-- Text of the C program. -/
abbrev Text := List Char

/-! ## `CSrc` -/

/-- `funCall`. -/
def funCall (func : Text) : List Text → Text
  | [] => func ++ "()".toList
  | args => func ++ '(' :: (args.flatMap fun a => ',' :: a).tail ++ [')']

/-- `funCallE`. -/
def funCallE (func : Text) (args : List Text) : Text := funCall func args ++ [';']

/-- `ifExpr`. -/
def ifExpr (cond : Text) (con alt : List Text) : List Text :=
  ["if (".toList ++ cond ++ ") \x7b".toList] ++ con ++ [['\x7d']] ++
    if alt = [] then [] else ["else \x7b".toList] ++ alt ++ [['\x7d']]

/-- `typeCast`. -/
def typeCast (t obj : Text) : Text := "(SCHEME_CTYPE(".toList ++ t ++ ") *)".toList ++ obj

/-- `mapBuiltin`. -/
def mapBuiltin (fun_ : Text) : Text :=
  if fun_ = ['+'] then "add".toList
  else if fun_ = ['-'] then "sub".toList
  else if fun_ = ['*'] then "mul".toList
  else if fun_ = ['/'] then "div".toList
  else if fun_ = "set!".toList then "set".toList
  else fun_

/-- `show`, of a number. -/
def showInt : ℤ → Text
  | .ofNat n => Nat.toDigits 10 n
  | .negSucc n => '-' :: Nat.toDigits 10 (n + 1)

/-- `funCallBuiltin`. -/
def funCallBuiltin (fun_ : Text) (argc : ℕ) : Text :=
  funCallE ("M_builtin_".toList ++ mapBuiltin fun_) [showInt argc]

/-- The label `n` of the compiler. -/
def labelText (n : ℕ) : Text := ".L_scm_".toList ++ showInt n

/-! ## Declarations

The data of the C file, as the declarations that the converter writes. -/

/-- An expression that `createConsts` returns. -/
inductive ObjExpr where
  | void
  | bool (b : Bool)
  | null
  | int (v : ℤ)
  | ascii (c : Char)
  | label (l : Text)
  deriving DecidableEq

/-- The text of an expression. -/
def ObjExpr.text : ObjExpr → Text
  | .void => "scheme_void".toList
  | .bool true => "scheme_true".toList
  | .bool false => "scheme_false".toList
  | .null => "scheme_null".toList
  | .int v => funCall "SCHEME_INT_TO_OBJ".toList [showInt v]
  | .ascii c => "scheme_ascii[".toList ++ showChar c ++ [']']
  | .label l => l

/-- The types of the constants. -/
inductive Proto where
  | string
  | symbol
  | pair
  | closure
  deriving DecidableEq

/-- The name of a type. -/
def Proto.text : Proto → Text
  | .string => "String".toList
  | .symbol => "Symbol".toList
  | .pair => "Pair".toList
  | .closure => "Closure".toList

/-- A field of a constant. -/
inductive Field where
  | envt
  | name (l : Text)
  | length (n : ℕ)
  | obj (e : ObjExpr)
  deriving DecidableEq

/-- The text of a field. -/
def Field.text : Field → Text
  | .envt => "global_environment".toList
  | .name l => l
  | .length n => showInt n
  | .obj e => typeCast "Obj".toList e.text

/-- A declaration of the data field. -/
inductive Decl where
  | string (label : Text) (s : List Char)
  | const (proto : Proto) (label : Text) (fields : List Field)
  | template (label fn : Text)
  deriving DecidableEq

/-- The text of a declaration. -/
def Decl.text : Decl → Text
  | .string label s => "static char ".toList ++ label ++ "[] = ".toList ++ showString s ++ [';']
  | .const proto label fields =>
    funCallE "SCHEME_DEF_CONST".toList ([proto.text, label] ++ fields.map Field.text)
  | .template label fn => "static ".toList ++ funCallE "SCHEME_DEF_TEMPLATE".toList [label, fn]

/-- What a declaration declares. -/
def Decl.label : Decl → Text
  | .string label _ => label
  | .const _ label _ => label
  | .template label _ => label

/-! ## The state -/

/-- `CompileTimeData`. -/
structure CompileTimeData where
  modName : Text
  symbolTab : List (Sym × Text)
  envt : CompileTimeEnvt
  funcLabel : ℕ
  valueLabel : ℕ

/-- `CFile`, without `cfileHead` and the parts that `convert` fills in at the end. -/
structure CFile where
  srcHead : List Text
  dataField : List Decl
  functions : List (List Text)

/-- An event of a run. -/
inductive Event where
  | dataLabel (l : Text)
  | funcLabel (l : Text)
  | const (d : Datum) (e : ObjExpr)
  | instr (i : Code) (env : CompileTimeEnvt) (code : List Text)

/-- `CompileTimeState`. -/
abbrev CompileTimeState := CompileTimeData × CFile

/-- A computation on the state, with its trace. -/
abbrev ConvM := Traced Event CompileTimeState

namespace CFile

/-- `getCTD`. -/
def getCTD : ConvM CompileTimeData := .lift fun s => some (s.1, s)

/-- `putCTD`. -/
def putCTD (d : CompileTimeData) : ConvM Unit := .lift fun s => some ((), d, s.2)

/-- `getCFile`. -/
def getCFile : ConvM CFile := .lift fun s => some (s.2, s)

/-- `putCFile`. -/
def putCFile (f : CFile) : ConvM Unit := .lift fun s => some ((), s.1, f)

/-- `getEnvt`. -/
def getEnvt : ConvM CompileTimeEnvt := do
  let d ← getCTD
  return d.envt

/-- `putEnvt`. -/
def putEnvt (env : CompileTimeEnvt) : ConvM Unit := do
  let d ← getCTD
  putCTD { d with envt := env }

/-- `putSymbolTab`. -/
def putSymbolTab (symtab : List (Sym × Text)) : ConvM Unit := do
  let d ← getCTD
  putCTD { d with symbolTab := symtab }

/-- The label with the number `n` that `getDataLabel` makes. -/
def dataLabel (dtype name : Text) (n : ℕ) : Text :=
  '_' :: dtype ++ "_scm_".toList ++ name ++ showInt n

/-- `getDataLabel`. -/
def getDataLabel (dtype name : Text) : ConvM Text := do
  let ctd ← getCTD
  putCTD { ctd with valueLabel := ctd.valueLabel + 1 }
  let label := dataLabel dtype name ctd.valueLabel
  .emit (.dataLabel label)
  return label

/-- The label with the number `n` that `getFuncLabel` makes. -/
def funcLabel (name : Text) (n : ℕ) : Text :=
  "_Func_scm_".toList ++ name ++ '_' :: showInt n

/-- `getFuncLabel`. -/
def getFuncLabel (name : Text) : ConvM Text := do
  let ctd ← getCTD
  putCTD { ctd with funcLabel := 1 + ctd.funcLabel }
  let label := funcLabel name ctd.funcLabel
  .emit (.funcLabel label)
  return label

/-- `addToHead`. -/
def addToHead (l : List Text) : ConvM Unit := do
  let cf ← getCFile
  putCFile { cf with srcHead := cf.srcHead ++ l }

/-- `addToDataField`. -/
def addToDataField (l : List Decl) : ConvM Unit := do
  let cf ← getCFile
  putCFile { cf with dataField := cf.dataField ++ l }

/-- `addFunction`. -/
def addFunction (name : Text) (code : List Text) : ConvM Text := do
  let label ← getFuncLabel name
  let cf ← getCFile
  let fdecl := "static void _c".toList ++ label ++ "()".toList
  let body := funCallE "BEGIN_PROC".toList [label] :: code
  putCFile { cf with functions := cf.functions ++ [[fdecl, ['\x7b']] ++ body ++ [['\x7d']]] }
  return label

/-- `addConstData`. -/
def addConstData (proto : Proto) (name : Text) (fields : List Field) : ConvM Text := do
  let label ← getDataLabel proto.text name
  addToHead [funCallE "SCHEME_DECL".toList [proto.text, label]]
  addToDataField [.const proto label fields]
  return label

/-- A string of the C program and the constant that points to it. -/
def addString (proto : Proto) (s : List Char) : ConvM Text := do
  let label ← getDataLabel "c_string".toList []
  addToDataField [.string label s]
  addConstData proto [] [.name label, .length s.length]

/-! ## Constants -/

/-- A note of the expression that is returned for `d`. -/
def noted (d : Datum) (x : ConvM ObjExpr) : ConvM ObjExpr := do
  let e ← x
  .emit (.const d e)
  return e

/-- `createConsts`. -/
def createConsts : ℕ → Datum → ConvM ObjExpr
  | 0, _ => .lift failure
  | fuel + 1, d => noted d <|
    match d with
    | .void => pure .void
    | .boolean v => pure (.bool v)
    | .number v => pure (.int v)
    | .character v => pure (.ascii v)
    | .string s => do
      let cvar ← addString .string s
      return .label cvar
    | .symbol .nil => .lift failure   -- Unexcepted inputed data.
    | .symbol (.sym s) => do
      let ctd ← getCTD
      match ctd.symbolTab.lookup (.sym s) with
      | some label => pure (.label label)
      | none => do
        let cvar ← addString .symbol s
        putSymbolTab ((.sym s, cvar) :: ctd.symbolTab)
        return .label cvar
    | .sExp [car] cdr => do
      let carVar ← createConsts fuel car
      let cdrVar ← createConsts fuel cdr
      let label ← addConstData .pair [] [.obj carVar, .obj cdrVar]
      return .label label
    | .list [] => pure .null
    | lst => do
      let d' ← .ofOption (listToSExp lst)
      createConsts fuel d'

theorem run_noted {d : Datum} {x y : ConvM ObjExpr} {s : CompileTimeState}
    (h : x.run s = y.run s) : (noted d x).run s = (noted d y).run s := by
  change Traced.next (x.run s).2 _ (x.run s).1 = _
  rw [h]
  rfl

/-- A symbol in the table has its constant. -/
theorem run_createConsts_symbol_some (fuel : ℕ) {name : Text} {label : Text}
    {s : CompileTimeState} (h : s.1.symbolTab.lookup (.sym name) = some label) :
    (createConsts (fuel + 1) (.symbol (.sym name))).run s =
      (noted (.symbol (.sym name)) (pure (.label label))).run s := by
  rw [createConsts]
  refine run_noted ?_
  rw [getCTD, Traced.lift_bind_of_run rfl, h]

/-- A symbol that is not in the table gets one. -/
theorem run_createConsts_symbol_none (fuel : ℕ) {name : Text} {s : CompileTimeState}
    (h : s.1.symbolTab.lookup (.sym name) = none) :
    (createConsts (fuel + 1) (.symbol (.sym name))).run s =
      (noted (.symbol (.sym name)) (do
        let cvar ← addString .symbol name
        putSymbolTab ((.sym name, cvar) :: s.1.symbolTab)
        return .label cvar)).run s := by
  rw [createConsts]
  refine run_noted ?_
  rw [getCTD, Traced.lift_bind_of_run rfl, h]

/-! ## Instructions

As in `Compiler/Convert`, but with the state that the converter carries along, and with a trace. -/

/-- `createRef`. -/
def createRef : ℕ → Text
  | 0 => "g_svm.reg_envt".toList
  | level + 1 => createRef level ++ "->enclosing".toList

/-- The code of an instruction that neither declares anything nor contains other instructions. -/
def line (env : CompileTimeEnvt) : Code → Option (List Text)
  | .blankLn => some [[]]
  | .nop => some [[]]
  | .push => some [funCallE "svm_push".toList []]
  | .label l => some [funCallE "LABEL".toList [labelText l]]
  | .leaveProc => some [funCallE "LEAVE_PROC".toList []]
  | .apply => some [funCallE "apply_procedure".toList []]
  | .callBuiltin (.sym fun_) argc => some [funCallBuiltin fun_ argc]
  | .pushCont l => some [funCallE "push_continuation".toList [labelText l]]
  | .goto l => some [funCallE "GOTO".toList [labelText l]]
  | .moveSp n => some [funCallE "MOVESP".toList [showInt n]]
  | .accStack n => some [funCallE "ACCESS_STACK".toList [showInt n]]
  | .lookupVar var => (lookupvar var env).map fun a =>
    [funCallE "LOOKUP_VAR".toList [createRef a.1, showInt a.2]]
  | .newBind var => (lookupvarAtCurrentEnvt var env).map fun a =>
    [funCallE "BIND_VAR".toList [createRef a.1, showInt a.2]]
  | .reBind var => (lookupvarAtCurrentEnvt var env).map fun a =>
    [funCallE "BIND_VAR".toList [createRef a.1, showInt a.2]]
  | _ => none   -- Unsupported instrument

/-- The value register of the virtual machine. -/
def valueRegister : Text := funCall "svm_register".toList ["value".toList]

/-- The code that loads a constant. -/
def fetchLine (e : ObjExpr) : Text :=
  "svm_register(value) = ".toList ++ typeCast "Obj".toList e.text ++ [';']

mutual

/-- `instr2c`. -/
def instr2c (fuel : ℕ) : Code → ConvM (List Text)
  | .fetchConst datum => do
    let value ← createConsts fuel datum
    return [fetchLine value]
  | .ifTrue con alt => do
    let conCode ← convSequence fuel con
    let altCode ← convSequence fuel alt
    return ifExpr (funCall "SCHEME_TRUEP".toList [valueRegister]) conCode altCode
  | .ifFalse con alt => do
    let conCode ← convSequence fuel con
    let altCode ← convSequence fuel alt
    return ifExpr (funCall "SCHEME_FALSEP".toList [valueRegister]) conCode altCode
  | .makeClosure (.sym name) (.args args) body => do
    -- create new environment for compile functions body
    let env ← getEnvt
    putEnvt (.envtFrame env (args ++ scanForNewbind body))
    let code ← convSequence fuel body
    let fn ← addFunction name code
    let tl ← getDataLabel name []
    addToHead ["static void ".toList ++ fn ++ "();".toList]
    addToDataField [.template tl fn]
    let cl ← addConstData .closure (name ++ ['_']) [.envt, .name tl]
    -- restore environment
    putEnvt env
    return [funCall "SCHEME_CLOSURE_ENVT".toList [cl] ++ " = g_svm.reg_envt;".toList,
      "svm_register(value) = (Scheme_Obj_t *)".toList ++ cl ++ [';'], []]
  | i => do
    let env ← getEnvt
    .ofOption (line env i)

/-- `convSequence`, and a note of each instruction when it has been converted. -/
def convSequence (fuel : ℕ) : List Code → ConvM (List Text)
  | [] => pure []
  | instr :: instrs => do
    let env ← getEnvt
    let c ← instr2c fuel instr
    .emit (.instr instr env c)
    let cs ← convSequence fuel instrs
    return c ++ cs

end

/-- `initState`. -/
def initState (name : Text) (instrs : List Code) : CompileTimeState :=
  (⟨name, [], topEnvt instrs, 0, 0⟩, ⟨[], [], []⟩)

/-- `convert`: the run code, the state after it, and the trace. -/
def convert (fuel : ℕ) (name : Text) (instrs : List Code) :
    Option (List Text × CompileTimeState) × List Event :=
  (convSequence fuel instrs).run (initState name instrs)

end CFile

end SchemeOs.Compiler
