import SchemeOs.Interpreter.Environment

/-!
# Interpreter/Eval — analysis and evaluation

`schemeEval` first turns a datum into a tree of tagged nodes, which is `analyze`, and then walks the
tree.  A node that was analyzed before is left as it is, so the body of a procedure is analyzed only
once.  All functions spend fuel at every call.
-/

namespace SchemeOs

/-! ## Keywords -/

/-- The functions of `_analyze_funcs_`. -/
inductive Keyword where
  | and | begin | case | cond | define | delay | do | else | if | lambda | let | letrec | letStar
  | or | quasiquote | quote | set
  deriving DecidableEq, Repr

/-- `_analyze_funcs_`, without the entry that ends it. -/
def analyzeFuncs : List (String × Keyword) :=
  [("and", .and), ("begin", .begin), ("case", .case), ("cond", .cond), ("define", .define),
   ("delay", .delay), ("do", .do), ("else", .else), ("if", .if), ("lambda", .lambda), ("let", .let),
   ("letrec", .letrec), ("let*", .letStar), ("or", .or), ("quasiquote", .quasiquote),
   ("quote", .quote), ("set!", .set)]

/-- What the evaluator takes from elsewhere: the characters that happen to lie after the names of
the keywords in memory, and the builtin procedures, by their number. -/
structure Externals where
  past : ℕ → ℕ → Char
  builtin : ℕ → ℕ → List Ptr → Comp Ptr

section Eval

variable (ext : Externals)

/-- `_analyze_funcs_[i].name[k]`; the names are not all as long as the key. -/
def nameChar (i k : ℕ) : Char :=
  match (analyzeFuncs[i]?).map fun f => f.1.toList with
  | none => ext.past i k
  | some name => if k = name.length then '\x00' else (name[k]?).getD (ext.past i k)

/-- The loop from `i` on that stops where `stop` holds, after `n` steps at the latest. -/
def scanFrom (stop : ℕ → Bool) : ℕ → ℕ → ℕ
  | 0, i => i
  | n + 1, i => if stop i then i else scanFrom stop n (i + 1)

/-- The loop over the characters of the key: the names from `i` up to `j` agree with it so far. -/
def findKeywordFrom : List Char → ℕ → ℕ → ℕ → Option Keyword
  | [], _, i, _ => (analyzeFuncs[i]?).map Prod.snd
  | c :: key, k, i, j =>
    let i := scanFrom (fun i => nameChar ext i k = c) (j - i) i
    if i = j then
      none
    else
      let j := scanFrom (fun j => nameChar ext j k ≠ c) (analyzeFuncs.length - (i + 1)) (i + 1)
      findKeywordFrom key (k + 1) i j

def findKeyword (key : List Char) : Option Keyword :=
  findKeywordFrom ext key 0 0 analyzeFuncs.length

/-! ## Analysis -/

/-- The end of `_analyze_if`. -/
def makeIf (pred cseq alter : Ptr) : Comp Ptr :=
  if pred = schemeVoid ∨ cseq = schemeVoid ∨ alter = schemeVoid then
    return schemeVoid
  else do
    let arms ← schemeMakePair cseq alter
    schemeAllocObj ⟨.ifExpr, .pair pred (some arms)⟩

def analyzeQuoted (obj : Ptr) : Comp Ptr := do
  schemeAllocObj ⟨.quotedExpr, .pair (← schemeCar (← schemeCdr obj)) none⟩

mutual

def analyze : ℕ → Ptr → Comp Ptr
  | 0, _ => failure
  | n + 1, obj => do
    let t ← schemeType obj
    if t.IsExpr then
      return obj
    else
      match t with
      | .char | .number | .integer | .bignum | .rational | .real | .float | .double | .string
      | .null | .vector | .bool => schemeAllocObj ⟨.selfEvaluating, .pair obj none⟩
      | .symbol => schemeAllocObj ⟨.variableExpr, .pair obj none⟩
      | .pair => do
        let head ← schemeCar obj
        match ← schemeType head with
        | .symbol =>
          match findKeyword ext (← schemeSymbolVal head) with
          | some keyword => analyzeKeyword n keyword obj
          | none => analyzeApplication n obj
        | .pair => analyzeApplication n obj
        | _ => return schemeVoid
      | _ => return schemeVoid

/-- The functions of `_analyze_funcs_`; some of them return a variable that they never set. -/
def analyzeKeyword : ℕ → Keyword → Ptr → Comp Ptr
  | 0, _, _ => failure
  | n + 1, keyword, obj =>
    match keyword with
    | .and => analyzeTail n .andExpr obj
    | .begin => analyzeTail n .beginExpr obj
    | .or => analyzeTail n .orExpr obj
    | .cond => analyzeCond n obj
    | .define => analyzeDefinition n obj
    | .else => return schemeTrue
    | .if => analyzeIf n obj
    | .lambda => analyzeLambda n obj
    | .quote => analyzeQuoted obj
    | .set => analyzeAssignment n obj
    | .case | .delay | .do | .let | .letrec | .letStar | .quasiquote => failure

def analyzeApplication : ℕ → Ptr → Comp Ptr
  | 0, _ => failure
  | n + 1, obj => do
    let expr ← analyzeSequence n obj
    schemeSetType expr .applicationExpr
    return expr

/-- `_analyze_and`, `_analyze_begin` and `_analyze_or`: the sequence of the operands, with the type
`t`. -/
def analyzeTail : ℕ → SchemeType → Ptr → Comp Ptr
  | 0, _, _ => failure
  | n + 1, t, obj => do
    let expr ← analyzeSequence n (← schemeCdr obj)
    schemeSetType expr t
    return expr

def analyzeSequence : ℕ → Ptr → Comp Ptr
  | 0, _ => failure
  | n + 1, seq => do
    let expr ← analyzeElements n schemeNull schemeNull seq
    schemeSetType expr .sequenceExpr
    return expr

/-- The loop of `analyzeSequence`: `expr` is the first of the new pairs, `q` the last. -/
def analyzeElements : ℕ → Ptr → Ptr → Ptr → Comp Ptr
  | 0, _, _, _ => failure
  | n + 1, expr, q, seq =>
    if seq = schemeNull then
      return expr
    else do
      let p ← schemeMakePair (← analyze n (← schemeCar seq)) schemeNull
      if expr = schemeNull then
        analyzeElements n p p (← schemeCdr seq)
      else
        schemeSetCdr q p
        analyzeElements n expr p (← schemeCdr seq)

def analyzeCond : ℕ → Ptr → Comp Ptr
  | 0, _ => failure
  | n + 1, obj => do
    let expr ← analyzeClauses n schemeNull schemeNull (← schemeCdr obj)
    schemeSetType expr .condExpr
    return expr

/-- The loop of `analyzeCond`: `expr` is the first of the new pairs, `s` the last. -/
def analyzeClauses : ℕ → Ptr → Ptr → Ptr → Comp Ptr
  | 0, _, _, _ => failure
  | n + 1, expr, s, obj =>
    if obj = schemeNull then
      return expr
    else do
      let p ← schemeCar obj
      let q ← analyze n (← schemeCar p)
      let body ← analyzeSequence n (← schemeCdr p)
      let clause ← schemeMakePair q body
      let r ← schemeMakePair clause schemeNull
      if expr = schemeNull then
        analyzeClauses n r r (← schemeCdr obj)
      else
        schemeSetCdr s r
        analyzeClauses n expr r (← schemeCdr obj)

def analyzeDefinition : ℕ → Ptr → Comp Ptr
  | 0, _ => failure
  | n + 1, obj => do
    let rest ← schemeCdr obj
    let p ← schemeCar rest
    match ← schemeType p with
    | .symbol => do
      let val ← analyze n (← schemeCar (← schemeCdr rest))
      schemeAllocObj ⟨.defvarExpr, .pair p (some val)⟩
    | .pair => do
      let var ← schemeCar p
      let paras ← schemeCdr p
      let body ← analyzeSequence n (← schemeCdr rest)
      let val ← schemeMakePair paras body
      schemeAllocObj ⟨.defunExpr, .pair var (some val)⟩
    | _ => failure

def analyzeIf : ℕ → Ptr → Comp Ptr
  | 0, _ => failure
  | n + 1, obj => do
    let p ← schemeCdr obj
    if (← schemeType p) = .pair then
      let pred ← analyze n (← schemeCar p)
      let p ← schemeCdr p
      -- without a consequence `cseq` is never set
      if (← schemeType p) = .pair then
        let cseq ← analyze n (← schemeCar p)
        let p ← schemeCdr p
        let t ← schemeType p
        if t = .pair then
          if (← schemeCdr p) ≠ schemeNull then
            return schemeVoid
          else
            makeIf pred cseq (← analyze n (← schemeCar p))
        else if p = schemeNull then
          makeIf pred cseq schemeNull
        else
          return schemeVoid
      else if p = schemeNull then
        failure
      else
        return schemeVoid
    else
      return schemeVoid

def analyzeLambda : ℕ → Ptr → Comp Ptr
  | 0, _ => failure
  | n + 1, obj => do
    let rest ← schemeCdr obj
    let vars ← schemeCar rest
    let body ← analyzeSequence n (← schemeCdr rest)
    schemeAllocObj ⟨.lambdaExpr, .pair vars (some body)⟩

def analyzeAssignment : ℕ → Ptr → Comp Ptr
  | 0, _ => failure
  | n + 1, obj => do
    let rest ← schemeCdr obj
    let var ← schemeCar rest
    if (← schemeType var) ≠ .symbol then
      return schemeVoid
    else
      let val ← analyze n (← schemeCar (← schemeCdr rest))
      schemeAllocObj ⟨.assignmentExpr, .pair var (some val)⟩

end

/-! ## Procedures -/

def schemeMakeProcedure (vars body env : Ptr) : Comp Ptr :=
  schemeAllocObj ⟨.cpdProc, .cpdProc vars body env⟩

/-- The elements of a list, which `scheme_apply_prim_proc` counts and copies. -/
def listElements : ℕ → Ptr → Comp (List Ptr)
  | 0, _ => failure
  | n + 1, p =>
    if p = schemeNull then
      return []
    else do
      let car ← schemeCar p
      let rest ← listElements n (← schemeCdr p)
      return car :: rest

def schemeApplyPrimProc (n : ℕ) (primProc arg : Ptr) : Comp Ptr := do
  let argv ← listElements n arg
  let (builtin, mina, maxa) ← schemePrim primProc
  if 0 < maxa ∧ maxa < argv.length then
    return schemeVoid
  else if (argv.length : ℤ) < mina then
    return schemeVoid
  else
    ext.builtin n builtin argv

end Eval

/-! ## Evaluation

The evaluator is written for all kinds of computations that those on the memory can be lifted to,
with its analysis and its calls of builtin procedures left open: `schemeEval` runs it with these
steps as they are, and `Interpreter/Dispatch` with a trace of them. -/

/-- The steps of an evaluation that a trace shows. -/
structure EvalSteps (M : Type → Type) where
  analyze : ℕ → Ptr → M Ptr
  applyPrimProc : ℕ → Ptr → Ptr → M Ptr

namespace EvalSteps

section

variable {M : Type → Type} [Monad M] [MonadLiftT Comp M] (steps : EvalSteps M)

/-- No fuel, or no function in the table. -/
def stuck : M Ptr := liftM (failure : Comp Ptr)

mutual

def schemeEval : ℕ → Ptr → Ptr → M Ptr
  | 0, _, _ => stuck
  | n + 1, exp, env =>
    if exp = schemeNull then
      return schemeNull
    else do
      let exp ← steps.analyze n exp
      let t ← schemeType exp
      if t = .selfEvaluating ∨ t = .quotedExpr then
        schemeCar exp
      else
        evalFun n t exp env

/-- The call of the function that `_eval_funs_` has for the type `t`; the index is the type less
`_scheme_expr_type_`, and the table has some entries `NULL`. -/
def evalFun : ℕ → SchemeType → Ptr → Ptr → M Ptr
  | 0, _, _, _ => stuck
  | n + 1, t, exp, env =>
    match t with
    | .exprType | .selfEvaluating | .quotedExpr | .elseClause => return schemeVoid
    | .variableExpr => do schemeLookupVar n (← schemeCar exp) env
    | .assignmentExpr => do
      let var ← schemeCar exp
      let val ← schemeEval n (← schemeCdr exp) env
      schemeSetVar var val env
    | .defvarExpr => do
      let var ← schemeCar exp
      let val ← schemeEval n (← schemeCdr exp) env
      schemeDefineVar var val env
    | .defunExpr => do
      let rest ← schemeCdr exp
      let proc ← schemeMakeProcedure (← schemeCar rest) (← schemeCdr rest) env
      schemeDefineVar (← schemeCar exp) proc env
    | .ifExpr => evalIf n exp env
    | .lambdaExpr => do schemeMakeProcedure (← schemeCar exp) (← schemeCdr exp) env
    | .beginExpr | .sequenceExpr => schemeEvalSequence n exp env
    | .condExpr => evalCond n exp env
    | .applicationExpr => evalApplication n exp env
    | .andExpr => evalAnd n exp env
    | .orExpr => evalOr n exp env
    | _ => stuck

def schemeEvalSequence : ℕ → Ptr → Ptr → M Ptr
  | 0, _, _ => stuck
  | n + 1, exp, env =>
    if exp = schemeNull then
      return schemeNull
    else
      evalElements n exp env

/-- The loop of `scheme_eval_sequence`, and the evaluation of the last expression after it. -/
def evalElements : ℕ → Ptr → Ptr → M Ptr
  | 0, _, _ => stuck
  | n + 1, exp, env => do
    if (← schemeCdr exp) = schemeNull then
      schemeEval n (← schemeCar exp) env
    else
      let _ ← schemeEval n (← schemeCar exp) env
      evalElements n (← schemeCdr exp) env

def evalIf : ℕ → Ptr → Ptr → M Ptr
  | 0, _, _ => stuck
  | n + 1, exp, env => do
    let pred ← schemeCar exp
    let arms ← schemeCdr exp
    let cseq ← schemeCar arms
    let alter ← schemeCdr arms
    if (← schemeEval n pred env) ≠ schemeFalse then
      schemeEval n cseq env
    else
      schemeEval n alter env

def evalCond : ℕ → Ptr → Ptr → M Ptr
  | 0, _, _ => stuck
  | n + 1, exp, env =>
    if exp = schemeNull then
      return schemeVoid
    else do
      let p ← schemeCar exp
      let test ← schemeCar p
      if test = schemeTrue then
        schemeEvalSequence n (← schemeCdr p) env
      else if (← schemeEval n test env) ≠ schemeFalse then
        schemeEvalSequence n (← schemeCdr p) env
      else
        evalCond n (← schemeCdr exp) env

def evalApplication : ℕ → Ptr → Ptr → M Ptr
  | 0, _, _ => stuck
  | n + 1, exp, env => do
    let proc ← schemeEval n (← schemeCar exp) env
    if proc = schemeVoid then
      return schemeVoid
    else
      let args ← evalList n schemeNull schemeNull (← schemeCdr exp) env
      schemeApply n proc args

def evalAnd : ℕ → Ptr → Ptr → M Ptr
  | 0, _, _ => stuck
  | n + 1, exp, env =>
    if exp = schemeNull then
      return schemeTrue
    else do
      if (← schemeEval n (← schemeCar exp) env) = schemeFalse then
        return schemeFalse
      else
        evalAnd n (← schemeCdr exp) env

def evalOr : ℕ → Ptr → Ptr → M Ptr
  | 0, _, _ => stuck
  | n + 1, exp, env =>
    if exp = schemeNull then
      return schemeFalse
    else do
      if (← schemeEval n (← schemeCar exp) env) ≠ schemeFalse then
        return schemeTrue
      else
        evalOr n (← schemeCdr exp) env

/-- `_eval_list`: `rslt` is the first of the new pairs, `q` the last. -/
def evalList : ℕ → Ptr → Ptr → Ptr → Ptr → M Ptr
  | 0, _, _, _, _ => stuck
  | n + 1, rslt, q, exp, env =>
    if exp = schemeNull then
      return rslt
    else do
      let p ← schemeMakePair (← schemeEval n (← schemeCar exp) env) schemeNull
      if q = schemeNull then
        evalList n p p (← schemeCdr exp) env
      else
        schemeSetCdr q p
        evalList n rslt p (← schemeCdr exp) env

def schemeApply : ℕ → Ptr → Ptr → M Ptr
  | 0, _, _ => stuck
  | n + 1, proc, pars => do
    match ← schemeType proc with
    | .primProc => steps.applyPrimProc n proc pars
    | .cpdProc => do
      let (paras, body, env) ← schemeProc proc
      let frame ← schemeExtendEnv n paras pars env
      schemeEvalSequence n body frame
    | _ => return schemeVoid

end

end

end EvalSteps

section Plain

variable (ext : Externals)

/-- The steps as they are. -/
def plainSteps : EvalSteps Comp where
  analyze := analyze ext
  applyPrimProc := schemeApplyPrimProc ext

abbrev schemeEval : ℕ → Ptr → Ptr → Comp Ptr := (plainSteps ext).schemeEval

abbrev evalFun : ℕ → SchemeType → Ptr → Ptr → Comp Ptr := (plainSteps ext).evalFun

abbrev schemeEvalSequence : ℕ → Ptr → Ptr → Comp Ptr := (plainSteps ext).schemeEvalSequence

abbrev evalElements : ℕ → Ptr → Ptr → Comp Ptr := (plainSteps ext).evalElements

abbrev evalCond : ℕ → Ptr → Ptr → Comp Ptr := (plainSteps ext).evalCond

abbrev evalAnd : ℕ → Ptr → Ptr → Comp Ptr := (plainSteps ext).evalAnd

abbrev evalOr : ℕ → Ptr → Ptr → Comp Ptr := (plainSteps ext).evalOr

abbrev evalList : ℕ → Ptr → Ptr → Ptr → Ptr → Comp Ptr := (plainSteps ext).evalList

abbrev schemeApply : ℕ → Ptr → Ptr → Comp Ptr := (plainSteps ext).schemeApply

end Plain

end SchemeOs
