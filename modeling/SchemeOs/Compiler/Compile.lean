import Mathlib.Data.Int.Notation
import Mathlib.Data.Nat.Notation
import Mathlib.Logic.Basic

/-!
# Compiler/Compile — expressions, code, and the compiler

The expressions of `Exptype.hs`, the virtual machine's code of `SVM.hs`, and `compileExprM` of
`Compiler.hs`, which passes a counter of labels along.  The label `.L_scm_n` is the number `n`; an
expression that the compiler rejects has no code.
-/

namespace SchemeOs.Compiler

/-- `Sym`. -/
inductive Sym where
  | nil
  | sym (name : List Char)
  deriving DecidableEq, Repr

/-- `Prefix`. -/
inductive Prefix where
  | preQuote
  | preQuasiquote
  | preComma
  | preCommat
  deriving DecidableEq, Repr

/-- `Datum`. -/
inductive Datum where
  | void
  | boolean (b : Bool)
  | number (n : ℤ)
  | character (c : Char)
  | string (s : List Char)
  | symbol (s : Sym)
  | list (data : List Datum)
  | sExp (data : List Datum) (last : Datum)   -- (<data> . <datum>)
  | abbrev (p : Prefix) (d : Datum)
  | vector (data : List Datum)

/-- `Formals`. -/
inductive Formals where
  | args (names : List Sym)
  | args2 (names : List Sym) (rest : Sym)
  deriving DecidableEq, Repr

/-- The names that formals bind. -/
def Formals.names : Formals → List Sym
  | .args names => names
  | .args2 names rest => names ++ [rest]

/-- `Expr`; the definitions of a `Body`, which nothing reads, are left out. -/
inductive Expr where
  | variable (s : Sym)
  | quote (d : Datum)
  | selfEval (d : Datum)
  | procCall (func : Expr) (args : List Expr)
  | sequence (exps : List Expr)
  | lambda (formals : Formals) (body : List Expr)
  | defvar (name : Sym) (exp : Expr)
  | defun (name : Sym) (args : List Sym) (body : List Expr)
  | defun2 (name : Sym) (args : List Sym) (larg : Sym) (body : List Expr)
  | branch (test thenExp elseExp : Expr)
  | assign (var : Sym) (exp : Expr)
  | cond (clauses : List (Expr × List Expr))
  | case (key : Expr) (clauses : List (List Datum × List Expr)) (els : List Expr)
  | and (exps : List Expr)
  | or (exps : List Expr)
  | let (binds : List (Sym × Expr)) (body : List Expr)

/-- `Code`. -/
inductive Code where
  | fetchConst (d : Datum)
  | makeClosure (name : Sym) (formals : Formals) (body : List Code)
  | lookupVar (s : Sym)
  | label (l : ℕ)
  | newBind (s : Sym)
  | reBind (s : Sym)
  | leaveProc
  | apply
  | callBuiltin (s : Sym) (argc : ℕ)
  | pushCont (l : ℕ)
  | push
  | moveSp (n : ℕ)
  | accStack (n : ℕ)
  | ifTrue (con alt : List Code)
  | ifFalse (con alt : List Code)
  | goto (l : ℕ)
  | blankLn
  | nop

/-- `builtinFuncTab`. -/
def builtinFuncTab : List (List Char) :=
  [['c', 'a', 'r'], ['c', 'd', 'r'], ['c', 'o', 'n', 's'], ['+'], ['-'], ['*'], ['/'],
    ['d', 'i', 's', 'p', 'l', 'a', 'y']]

/-- `elem func builtinFunctions`, and the name that `varGetSym` gives. -/
def builtinSym : Expr → Option Sym
  | .variable (.sym s) => if s ∈ builtinFuncTab then some (.sym s) else none
  | _ => none

/-- `CodeM`, for a compiler that may fail. -/
abbrev CodeM := StateT ℕ Option

/-- `getLabel`. -/
def getLabel : CodeM ℕ := fun label => some (label, label + 1)

/-- `codeBlock`. -/
def codeBlock (istail : Bool) : CodeM (List Code × List Code) :=
  if istail then pure ([], [])
  else do
    let label ← getLabel
    return ([.pushCont label], [.label label])

/-- `removeLast`. -/
def removeLast (xs : List Code) : List Code := xs.take (xs.length - 1)

/-- The code that binds the parameters of a procedure. -/
def header (args : List Sym) : List Code :=
  args.zipIdx.flatMap fun vi => [.accStack vi.2, .reBind vi.1]

mutual

/-- `compileExprM`. -/
def compileExprM (istail : Bool) : Expr → CodeM (List Code)
  | .variable sym => pure [.lookupVar sym]
  | .quote datum => pure [.fetchConst datum]
  | .selfEval datum => pure [.fetchConst datum]
  | .procCall func args => do
    let (h, t) ← codeBlock istail
    let operands ← compileSeq false args
    match builtinSym func with
    | some sym =>
      return (operands.flatMap fun x => x ++ [.push, .blankLn]) ++
        [.callBuiltin sym args.length, .moveSp args.length, .blankLn]
    | none =>
      let operator ← compileExprM false func
      return h ++ (operands.flatMap fun x => x ++ [.push, .blankLn]) ++ operator ++ [.apply] ++ t ++
        [.blankLn]
  | .sequence exps => do
    let codes ← compileSeq istail exps
    return codes.flatten
  | .lambda formals body => do
    let c ← compileSeq true body
    return [.makeClosure .nil formals (c.flatten ++ [.leaveProc])]
  | .defvar name exp => do
    let c ← compileExprM false exp
    return c ++ [.newBind name, .nop]
  | .defun name args body => do
    let c ← compileSeq true body
    return [.makeClosure name (.args args) (header args ++ c.flatten ++ [.leaveProc]),
      .newBind name, .nop]
  | .defun2 name args larg body => do
    let c ← compileSeq true body
    return [.makeClosure name (.args2 args larg) (c.flatten ++ [.leaveProc]), .newBind name, .nop]
  | .assign var exp => do
    let c ← compileExprM false exp
    return c ++ [.reBind var, .nop]
  | .branch test thenExp elseExp => do
    let cTest ← compileExprM false test
    let cThen ← compileExprM istail thenExp
    let cElse ← compileExprM istail elseExp
    return cTest ++ [.ifTrue cThen cElse]
  | .cond clauses => do
    let labelEnd ← getLabel
    let c ← compileClauses istail labelEnd clauses
    return c ++ [.fetchConst .void, .label labelEnd]
  | .and [] => pure [.fetchConst (.boolean true)]
  | .and (exp :: exps) => do
    let codes ← compileSeq istail (exp :: exps)
    let lend ← getLabel
    return removeLast (codes.flatMap fun c => c ++ [.ifFalse [.goto lend] []]) ++ [.label lend]
  | .or [] => pure [.fetchConst (.boolean false)]
  | .or (exp :: exps) => do
    let codes ← compileSeq istail (exp :: exps)
    let lend ← getLabel
    return removeLast (codes.flatMap fun c => c ++ [.ifTrue [.goto lend] []]) ++ [.label lend]
  | .case _ _ _ => failure   -- Unsupported syntax
  | .let _ _ => failure

/-- `compileSeq`. -/
def compileSeq (istail : Bool) : List Expr → CodeM (List (List Code))
  | [] => pure []
  | exp :: exps =>
    if exps.isEmpty then do
      let code ← compileExprM istail exp
      return [code]
    else do
      let code ← compileExprM false exp
      let restCode ← compileSeq istail exps
      return code :: restCode

/-- `concatMapM (compileClause label_end)`. -/
def compileClauses (istail : Bool) (labelEnd : ℕ) : List (Expr × List Expr) → CodeM (List Code)
  | [] => pure []
  | (tst, seq) :: clauses => do
    let t ← compileExprM false tst
    let a ← compileSeq istail seq
    let rest ← compileClauses istail labelEnd clauses
    return t ++ [.ifTrue (a.flatten ++ [.goto labelEnd]) []] ++ rest

end

/-- `compile`. -/
def compile (exps : List Expr) : Option (List Code) :=
  ((compileExprM true (.sequence exps)).run 0).map Prod.fst

example : compile [.branch (.selfEval (.boolean true)) (.selfEval (.number 1)) (.and [])] =
    some [.fetchConst (.boolean true),
      .ifTrue [.fetchConst (.number 1)] [.fetchConst (.boolean true)]] := by
  rfl

end SchemeOs.Compiler
