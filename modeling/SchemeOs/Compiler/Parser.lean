import Mathlib
import SchemeOs.Compiler.Compile
import SchemeOs.Machinery.ParserTables

/-!
# Compiler/Parser — the parser

The tokens of `Scmlex.x`, the grammar `Parser.y` with its actions, and the automaton `Parser.hs`
that was made of it.  The states and the productions have the numbers of `Parser.hs`; a production
is a nonterminal, a right side and an action.  The automaton accepts exactly what the grammar
derives, with the same expressions, so that the grammar is unambiguous.
-/

namespace SchemeOs.Compiler

/-! ## Tokens -/

/-- `Token`, without positions. -/
inductive Token where
  | leftpar
  | rightpar
  | leftsharpar
  | quote
  | point
  | else
  | rightarrow
  | define
  | unquote
  | unquotesplicing
  | expQuote
  | expLambda
  | expIf
  | expSet
  | expBegin
  | expCond
  | expAnd
  | expOr
  | expCase
  | let
  | letstar
  | letrec
  | do
  | delay
  | quasiquote
  | id (s : List Char)
  | string (s : List Char)
  | boolean (b : Bool)
  | character (c : Char)
  | number (n : ℤ)
  deriving DecidableEq

namespace Parser

open Parsing

/-- The `%token`s. -/
inductive Terminal where
  | leftpar
  | rightpar
  | point
  | else
  | rightarrow
  | define
  | lambda
  | if
  | set
  | cond
  | case
  | and
  | or
  | let
  | unquote
  | unquotesplicing
  | tick
  | quote
  | id
  | string
  | bool
  | char
  | number
  deriving DecidableEq

/-- Which tokens are `%token`s; the others are errors of the parser. -/
def kind : Token → Option Terminal
  | .leftpar => some .leftpar
  | .rightpar => some .rightpar
  | .point => some .point
  | .else => some .else
  | .rightarrow => some .rightarrow
  | .define => some .define
  | .expLambda => some .lambda
  | .expIf => some .if
  | .expSet => some .set
  | .expCond => some .cond
  | .expCase => some .case
  | .expAnd => some .and
  | .expOr => some .or
  | .let => some .let
  | .unquote => some .unquote
  | .unquotesplicing => some .unquotesplicing
  | .quote => some .tick
  | .expQuote => some .quote
  | .id _ => some .id
  | .string _ => some .string
  | .boolean _ => some .bool
  | .character _ => some .char
  | .number _ => some .number
  | .leftsharpar => none
  | .expBegin => none
  | .letstar => none
  | .letrec => none
  | .do => none
  | .delay => none
  | .quasiquote => none

/-! ## The grammar -/

/-- The nonterminals, and the one that Happy adds. -/
inductive Nonterminal where
  | start
  | exprs
  | expr
  | expr0
  | expr0s
  | literal
  | quotation
  | datum
  | datumStar
  | datumPlus
  | procCall
  | operator
  | operands
  | lambda
  | formals
  | varStar
  | varPlus
  | var
  | body
  | definition
  | definitions
  | ifExp
  | assignment
  | derivedExpr
  | condClause
  | elseClause
  | condClauseStar
  | condClausePlus
  | caseClause
  | caseClauseStar
  | bind
  | bindings
  deriving DecidableEq

/-- `HappyAbsSyn`: a token, or what a nonterminal stands for. -/
inductive AbsSyn where
  | token (t : Token)
  | exprs (es : List Expr)
  | expr (e : Expr)
  | datum (d : Datum)
  | data (ds : List Datum)
  | formals (f : Formals)
  | syms (xs : List Sym)
  | sym (x : Sym)
  | condClause (c : Expr × List Expr)
  | condClauses (cs : List (Expr × List Expr))
  | caseClause (c : List Datum × List Expr)
  | caseClauses (cs : List (List Datum × List Expr))
  | bind (b : Sym × Expr)
  | binds (bs : List (Sym × Expr))

/-- A terminal of a right side. -/
abbrev tm : Terminal → Letter Terminal Nonterminal := .terminal

/-- A nonterminal of a right side. -/
abbrev nt : Nonterminal → Letter Terminal Nonterminal := .nonterminal

/-- The productions of expressions and literals. -/
def exprProductions : List (Production Terminal Nonterminal AbsSyn) :=
  [⟨.start, [nt .exprs], List.head?⟩,
    ⟨.exprs, [], fun _ => some (.exprs [])⟩,
    ⟨.exprs, [nt .expr, nt .exprs], fun
      | [.expr e, .exprs es] => some (.exprs (e :: es))
      | _ => none⟩,
    ⟨.expr, [nt .expr0], List.head?⟩,
    ⟨.expr, [nt .definition], List.head?⟩,
    ⟨.expr0, [nt .var], fun
      | [.sym x] => some (.expr (.variable x))
      | _ => none⟩,
    ⟨.expr0, [nt .literal], List.head?⟩,
    ⟨.expr0, [nt .procCall], List.head?⟩,
    ⟨.expr0, [nt .lambda], List.head?⟩,
    ⟨.expr0, [nt .ifExp], List.head?⟩,
    ⟨.expr0, [nt .assignment], List.head?⟩,
    ⟨.expr0, [nt .derivedExpr], List.head?⟩,
    ⟨.expr0s, [], fun _ => some (.exprs [])⟩,
    ⟨.expr0s, [nt .expr0, nt .expr0s], fun
      | [.expr e, .exprs es] => some (.exprs (e :: es))
      | _ => none⟩,
    ⟨.literal, [nt .quotation], List.head?⟩,
    ⟨.literal, [tm .bool], fun
      | [.token (.boolean b)] => some (.expr (.selfEval (.boolean b)))
      | _ => none⟩,
    ⟨.literal, [tm .number], fun
      | [.token (.number n)] => some (.expr (.selfEval (.number n)))
      | _ => none⟩,
    ⟨.literal, [tm .char], fun
      | [.token (.character c)] => some (.expr (.selfEval (.character c)))
      | _ => none⟩,
    ⟨.literal, [tm .string], fun
      | [.token (.string s)] => some (.expr (.selfEval (.string s)))
      | _ => none⟩]

/-- The productions of quotations and data. -/
def datumProductions : List (Production Terminal Nonterminal AbsSyn) :=
  [⟨.quotation, [tm .tick, nt .datum], fun
      | [_, .datum d] => some (.expr (.quote d))
      | _ => none⟩,
    ⟨.quotation, [tm .leftpar, tm .quote, nt .datum, tm .rightpar], fun
      | [_, _, .datum d, _] => some (.expr (.quote d))
      | _ => none⟩,
    ⟨.datum, [tm .bool], fun
      | [.token (.boolean b)] => some (.datum (.boolean b))
      | _ => none⟩,
    ⟨.datum, [tm .number], fun
      | [.token (.number n)] => some (.datum (.number n))
      | _ => none⟩,
    ⟨.datum, [tm .char], fun
      | [.token (.character c)] => some (.datum (.character c))
      | _ => none⟩,
    ⟨.datum, [tm .string], fun
      | [.token (.string s)] => some (.datum (.string s))
      | _ => none⟩,
    ⟨.datum, [tm .id], fun
      | [.token (.id s)] => some (.datum (.symbol (.sym s)))
      | _ => none⟩,
    ⟨.datum, [tm .leftpar, nt .datumStar, tm .rightpar], fun
      | [_, .data ds, _] => some (.datum (.list ds))
      | _ => none⟩,
    ⟨.datum, [tm .leftpar, nt .datumStar, tm .point, nt .datum, tm .rightpar], fun
      | [_, .data ds, _, .datum d, _] => some (.datum (.sExp ds d))
      | _ => none⟩,
    ⟨.datumStar, [], fun _ => some (.data [])⟩,
    ⟨.datumStar, [nt .datum, nt .datumStar], fun
      | [.datum d, .data ds] => some (.data (d :: ds))
      | _ => none⟩,
    ⟨.datumPlus, [nt .datum], fun
      | [.datum d] => some (.data [d])
      | _ => none⟩,
    ⟨.datumPlus, [nt .datum, nt .datumPlus], fun
      | [.datum d, .data ds] => some (.data (d :: ds))
      | _ => none⟩]

/-- The productions of calls, procedures and definitions. -/
def procProductions : List (Production Terminal Nonterminal AbsSyn) :=
  [⟨.procCall, [tm .leftpar, nt .operator, nt .operands, tm .rightpar], fun
      | [_, .expr func, .exprs args, _] => some (.expr (.procCall func args))
      | _ => none⟩,
    ⟨.operator, [nt .expr0], List.head?⟩,
    ⟨.operands, [], fun _ => some (.exprs [])⟩,
    ⟨.operands, [nt .operands, nt .expr0], fun
      | [.exprs es, .expr e] => some (.exprs (e :: es))   -- the last operand first
      | _ => none⟩,
    ⟨.lambda, [tm .leftpar, tm .lambda, nt .formals, nt .body, tm .rightpar], fun
      | [_, _, .formals f, .exprs body, _] => some (.expr (.lambda f body))
      | _ => none⟩,
    ⟨.formals, [nt .var], fun
      | [.sym x] => some (.formals (.args2 [] x))
      | _ => none⟩,
    ⟨.formals, [tm .leftpar, nt .varStar, tm .rightpar], fun
      | [_, .syms xs, _] => some (.formals (.args xs))
      | _ => none⟩,
    ⟨.formals, [tm .leftpar, nt .varPlus, tm .point, nt .var, tm .rightpar], fun
      | [_, .syms xs, _, .sym x, _] => some (.formals (.args2 xs x))
      | _ => none⟩,
    ⟨.varStar, [], fun _ => some (.syms [])⟩,
    ⟨.varStar, [nt .var, nt .varStar], fun
      | [.sym x, .syms xs] => some (.syms (x :: xs))
      | _ => none⟩,
    ⟨.varPlus, [nt .var], fun
      | [.sym x] => some (.syms [x])
      | _ => none⟩,
    ⟨.varPlus, [nt .var, nt .varPlus], fun
      | [.sym x, .syms xs] => some (.syms (x :: xs))
      | _ => none⟩,
    ⟨.var, [tm .id], fun
      | [.token (.id s)] => some (.sym (.sym s))
      | _ => none⟩,
    ⟨.body, [nt .exprs], List.head?⟩,
    ⟨.definition, [tm .leftpar, tm .define, nt .var, nt .expr0, tm .rightpar], fun
      | [_, _, .sym x, .expr e, _] => some (.expr (.defvar x e))
      | _ => none⟩,
    ⟨.definition, [tm .leftpar, tm .define, tm .leftpar, nt .var, nt .varStar, tm .rightpar,
        nt .body, tm .rightpar], fun
      | [_, _, _, .sym x, .syms xs, _, .exprs body, _] => some (.expr (.defun x xs body))
      | _ => none⟩,
    ⟨.definition, [tm .leftpar, tm .define, tm .leftpar, nt .var, nt .varPlus, tm .point, nt .var,
        tm .rightpar, nt .body, tm .rightpar], fun
      | [_, _, _, .sym x, .syms xs, _, .sym y, _, .exprs body, _] =>
        some (.expr (.defun2 x xs y body))
      | _ => none⟩,
    ⟨.definitions, [], fun _ => some (.exprs [])⟩]

/-- The productions of the other forms. -/
def derivedProductions : List (Production Terminal Nonterminal AbsSyn) :=
  [⟨.ifExp, [tm .leftpar, tm .if, nt .expr0, nt .expr0, nt .expr0, tm .rightpar], fun
      | [_, _, .expr test, .expr thenExp, .expr elseExp, _] =>
        some (.expr (.branch test thenExp elseExp))
      | _ => none⟩,
    ⟨.assignment, [tm .leftpar, tm .set, nt .var, nt .expr0, tm .rightpar], fun
      | [_, _, .sym x, .expr e, _] => some (.expr (.assign x e))
      | _ => none⟩,
    ⟨.derivedExpr, [tm .leftpar, tm .cond, nt .condClausePlus, tm .rightpar], fun
      | [_, _, .condClauses cs, _] => some (.expr (.cond cs))
      | _ => none⟩,
    ⟨.derivedExpr, [tm .leftpar, tm .case, nt .expr0, nt .caseClauseStar, tm .rightpar], fun
      | [_, _, .expr key, .caseClauses cs, _] => some (.expr (.case key cs []))
      | _ => none⟩,
    ⟨.derivedExpr, [tm .leftpar, tm .and, nt .expr0s, tm .rightpar], fun
      | [_, _, .exprs es, _] => some (.expr (.and es))
      | _ => none⟩,
    ⟨.derivedExpr, [tm .leftpar, tm .or, nt .expr0s, tm .rightpar], fun
      | [_, _, .exprs es, _] => some (.expr (.or es))
      | _ => none⟩,
    ⟨.derivedExpr, [tm .leftpar, tm .let, tm .leftpar, nt .bindings, tm .rightpar, nt .body,
        tm .rightpar], fun
      | [_, _, _, .binds bs, _, .exprs body, _] => some (.expr (.let bs body))
      | _ => none⟩,
    ⟨.condClause, [tm .leftpar, nt .expr0, nt .expr0, nt .expr0s, tm .rightpar], fun
      | [_, .expr test, .expr e, .exprs es, _] => some (.condClause (test, e :: es))
      | _ => none⟩,
    ⟨.condClause, [tm .leftpar, nt .expr0, tm .rightpar], fun
      | [_, .expr test, _] => some (.condClause (test, []))
      | _ => none⟩,
    ⟨.condClause, [tm .leftpar, nt .expr0, tm .rightarrow, nt .expr0, tm .rightpar], fun
      | [_, .expr test, _, .expr e, _] => some (.condClause (test, [e]))
      | _ => none⟩]

/-- The productions of clauses and bindings. -/
def clauseProductions : List (Production Terminal Nonterminal AbsSyn) :=
  [⟨.condClause, [nt .elseClause], fun
      | [.exprs es] => some (.condClause (.selfEval (.boolean true), es))
      | _ => none⟩,
    ⟨.elseClause, [tm .leftpar, tm .else, nt .expr0, nt .expr0s, tm .rightpar], fun
      | [_, _, .expr e, .exprs es, _] => some (.exprs (e :: es))
      | _ => none⟩,
    ⟨.condClauseStar, [], fun _ => some (.condClauses [])⟩,
    ⟨.condClauseStar, [nt .condClause, nt .condClauseStar], fun
      | [.condClause c, .condClauses cs] => some (.condClauses (c :: cs))
      | _ => none⟩,
    ⟨.condClausePlus, [nt .condClause, nt .condClauseStar], fun
      | [.condClause c, .condClauses cs] => some (.condClauses (c :: cs))
      | _ => none⟩,
    ⟨.caseClause, [tm .leftpar, tm .leftpar, nt .datumStar, tm .rightpar, nt .expr0, nt .expr0s,
        tm .rightpar], fun
      | [_, _, .data ds, _, .expr e, .exprs es, _] => some (.caseClause (ds, e :: es))
      | _ => none⟩,
    ⟨.caseClause, [nt .elseClause], fun
      | [.exprs es] => some (.caseClause ([.void], es))
      | _ => none⟩,
    ⟨.caseClauseStar, [], fun _ => some (.caseClauses [])⟩,
    ⟨.caseClauseStar, [nt .caseClause, nt .caseClauseStar], fun
      | [.caseClause c, .caseClauses cs] => some (.caseClauses (c :: cs))
      | _ => none⟩,
    ⟨.bind, [tm .leftpar, nt .var, nt .expr0, tm .rightpar], fun
      | [_, .sym x, .expr e, _] => some (.bind (x, e))
      | _ => none⟩,
    ⟨.bindings, [], fun _ => some (.binds [])⟩,
    ⟨.bindings, [nt .bind, nt .bindings], fun
      | [.bind b, .binds bs] => some (.binds (b :: bs))
      | _ => none⟩]

/-- The productions. -/
def productions : List (Production Terminal Nonterminal AbsSyn) :=
  exprProductions ++ datumProductions ++ procProductions ++ derivedProductions ++ clauseProductions

/-- `Parser.y`. -/
def grammar : Grammar Token Terminal Nonterminal AbsSyn where
  prods := productions
  start := .exprs
  kind := kind
  leaf := .token

/-! ## The automaton

The tables that the parser generator has written into `Parser.hs`. -/

/-- The moves where an `Expr0` begins; `s` is the state after the parenthesis. -/
def expr0Moves (s : ℕ) : List (Terminal × Move) :=
  [(.leftpar, .shift s), (.tick, .shift 15), (.id, .shift 16), (.string, .shift 17),
    (.bool, .shift 18), (.char, .shift 19), (.number, .shift 20)]

/-- The moves after a parenthesis, for the keywords of an `Expr0`. -/
def formMoves : List (Terminal × Move) :=
  [(.lambda, .shift 32), (.if, .shift 33), (.set, .shift 34), (.cond, .shift 35),
    (.case, .shift 36), (.and, .shift 37), (.or, .shift 38), (.let, .shift 39)]

/-- The moves where a `Datum` begins. -/
def datumMoves : List (Terminal × Move) :=
  [(.leftpar, .shift 22), (.id, .shift 23), (.string, .shift 24), (.bool, .shift 25),
    (.char, .shift 26), (.number, .shift 27)]

/-- Where to go after an `Expr0`, which is `s`, and after its parts. -/
def expr0Gotos (s : ℕ) : List (Nonterminal × ℕ) :=
  [(.expr0, s), (.literal, 5), (.quotation, 6), (.procCall, 7), (.lambda, 8), (.var, 9),
    (.ifExp, 11), (.assignment, 12), (.derivedExpr, 13)]

/-- Where to go after `Exprs`, which is `s`, and after their parts. -/
def exprGotos (s : ℕ) : List (Nonterminal × ℕ) :=
  [(.exprs, s), (.expr, 3), (.definition, 10)] ++ expr0Gotos 4

/-- A state. -/
def row (moves : List (Terminal × Move)) (gotos : List (Nonterminal × ℕ)) (other : Move) :
    Row Terminal Nonterminal :=
  ⟨moves, gotos, none, other⟩

/-- A state that reduces by the production `k`. -/
def reduces (k : ℕ) : Row Terminal Nonterminal := row [] [] (.reduce k)

/-- A state that expects the token `t`. -/
def expects (t : Terminal) (s : ℕ) : Row Terminal Nonterminal :=
  row [(t, .shift s)] [] .fail

/-- The states from 0 on. -/
def rows0 : List (Row Terminal Nonterminal) :=
  [row (expr0Moves 14) (exprGotos 2) (.reduce 1), row [] [] .fail, ⟨[], [], some .accept, .fail⟩,
    row (expr0Moves 14) (exprGotos 41) (.reduce 1), reduces 3, reduces 6, reduces 14, reduces 7,
    reduces 8, reduces 5,
    reduces 4, reduces 9, reduces 10, reduces 11,
    row (expr0Moves 30 ++ formMoves ++ [(.define, .shift 31), (.quote, .shift 40)])
      (expr0Gotos 28 ++ [(.operator, 29)]) .fail,
    row datumMoves [(.datum, 21)] .fail, reduces 44, reduces 18, reduces 15, reduces 17]

/-- The states from 20 on. -/
def rows20 : List (Row Terminal Nonterminal) :=
  [reduces 16, reduces 19, row datumMoves [(.datum, 60), (.datumStar, 61)] (.reduce 28),
    reduces 25, reduces 24, reduces 21, reduces 23, reduces 22, reduces 33,
    row [] [(.operands, 59)] (.reduce 34),
    row (expr0Moves 30 ++ formMoves ++ [(.quote, .shift 40)]) (expr0Gotos 28 ++ [(.operator, 29)])
      .fail,
    row [(.leftpar, .shift 58), (.id, .shift 16)] [(.var, 57)] .fail,
    row [(.leftpar, .shift 56), (.id, .shift 16)] [(.formals, 54), (.var, 55)] .fail,
    row (expr0Moves 30) (expr0Gotos 53) .fail, row [(.id, .shift 16)] [(.var, 52)] .fail,
    row [(.leftpar, .shift 51)] [(.condClause, 48), (.elseClause, 49), (.condClausePlus, 50)] .fail,
    row (expr0Moves 30) (expr0Gotos 47) .fail,
    row (expr0Moves 30) (expr0Gotos 44 ++ [(.expr0s, 46)]) (.reduce 12),
    row (expr0Moves 30) (expr0Gotos 44 ++ [(.expr0s, 45)]) (.reduce 12), expects .leftpar 43]

/-- The states from 40 on. -/
def rows40 : List (Row Terminal Nonterminal) :=
  [row datumMoves [(.datum, 42)] .fail, reduces 2, expects .rightpar 91,
    row [(.leftpar, .shift 90)] [(.bind, 88), (.bindings, 89)] (.reduce 70),
    row (expr0Moves 30) (expr0Gotos 44 ++ [(.expr0s, 87)]) (.reduce 12), expects .rightpar 86,
    expects .rightpar 85,
    row [(.leftpar, .shift 84)] [(.elseClause, 81), (.caseClause, 82), (.caseClauseStar, 83)]
      (.reduce 67),
    row [(.leftpar, .shift 51)] [(.condClause, 79), (.elseClause, 49), (.condClauseStar, 80)]
      (.reduce 62),
    reduces 60,
    expects .rightpar 78, row (expr0Moves 30 ++ [(.else, .shift 77)]) (expr0Gotos 76) .fail,
    row (expr0Moves 30) (expr0Gotos 75) .fail, row (expr0Moves 30) (expr0Gotos 74) .fail,
    row (expr0Moves 14) (exprGotos 72 ++ [(.body, 73)]) (.reduce 1), reduces 37,
    row [(.id, .shift 16)] [(.varStar, 69), (.varPlus, 70), (.var, 71)] (.reduce 40),
    row (expr0Moves 30) (expr0Gotos 68) .fail, row [(.id, .shift 16)] [(.var, 67)] .fail,
    row (expr0Moves 30 ++ [(.rightpar, .shift 66)]) (expr0Gotos 65) .fail]

/-- The states from 60 on. -/
def rows60 : List (Row Terminal Nonterminal) :=
  [row datumMoves [(.datum, 60), (.datumStar, 64)] (.reduce 28),
    row [(.rightpar, .shift 62), (.point, .shift 63)] [] .fail, reduces 26,
    row datumMoves [(.datum, 113)] .fail, reduces 29, reduces 35, reduces 32,
    row [(.id, .shift 16)] [(.varStar, 111), (.varPlus, 112), (.var, 71)] (.reduce 40),
    expects .rightpar 110, expects .rightpar 109,
    expects .point 108,
    row [(.point, .reduce 42), (.id, .shift 16)] [(.varStar, 106), (.varPlus, 107), (.var, 71)]
      (.reduce 40),
    reduces 45, expects .rightpar 105, row (expr0Moves 30) (expr0Gotos 104) .fail,
    expects .rightpar 103,
    row (expr0Moves 30 ++ [(.rightpar, .shift 101), (.rightarrow, .shift 102)]) (expr0Gotos 100)
      .fail,
    row (expr0Moves 30) (expr0Gotos 99) .fail, reduces 52,
    row [(.leftpar, .shift 51)] [(.condClause, 79), (.elseClause, 49), (.condClauseStar, 98)]
      (.reduce 62)]

/-- The states from 80 on. -/
def rows80 : List (Row Terminal Nonterminal) :=
  [reduces 64, reduces 66,
    row [(.leftpar, .shift 84)] [(.elseClause, 81), (.caseClause, 82), (.caseClauseStar, 97)]
      (.reduce 67),
    expects .rightpar 96, row [(.leftpar, .shift 95), (.else, .shift 77)] [] .fail, reduces 54,
    reduces 55, reduces 13, row [(.leftpar, .shift 90)] [(.bind, 88), (.bindings, 94)] (.reduce 70),
    expects .rightpar 93,
    row [(.id, .shift 16)] [(.var, 92)] .fail, reduces 20,
    row (expr0Moves 30) (expr0Gotos 124) .fail,
    row (expr0Moves 14) (exprGotos 72 ++ [(.body, 123)]) (.reduce 1), reduces 71,
    row datumMoves [(.datum, 60), (.datumStar, 122)] (.reduce 28), reduces 53, reduces 68,
    reduces 63, row (expr0Moves 30) (expr0Gotos 44 ++ [(.expr0s, 121)]) (.reduce 12)]

/-- The states from 100 on. -/
def rows100 : List (Row Terminal Nonterminal) :=
  [row (expr0Moves 30) (expr0Gotos 44 ++ [(.expr0s, 120)]) (.reduce 12), reduces 58,
    row (expr0Moves 30) (expr0Gotos 119) .fail, reduces 51, expects .rightpar 118, reduces 36,
    reduces 41, reduces 43, row [(.id, .shift 16)] [(.var, 117)] .fail, reduces 38,
    reduces 46, expects .rightpar 116, expects .point 115, expects .rightpar 114, reduces 27,
    row [(.id, .shift 16)] [(.var, 133)] .fail,
    row (expr0Moves 14) (exprGotos 72 ++ [(.body, 132)]) (.reduce 1), expects .rightpar 131,
    reduces 50, expects .rightpar 130]

/-- The states from 120 on. -/
def rows120 : List (Row Terminal Nonterminal) :=
  [expects .rightpar 129, expects .rightpar 128, expects .rightpar 127, expects .rightpar 126,
    expects .rightpar 125, reduces 69, reduces 56, row (expr0Moves 30) (expr0Gotos 136) .fail,
    reduces 61, reduces 57,
    reduces 59, reduces 39, expects .rightpar 135, expects .rightpar 134,
    row (expr0Moves 14) (exprGotos 72 ++ [(.body, 138)]) (.reduce 1), reduces 47,
    row (expr0Moves 30) (expr0Gotos 44 ++ [(.expr0s, 137)]) (.reduce 12), expects .rightpar 140,
    expects .rightpar 139, reduces 48]

/-- The states from 140 on. -/
def rows140 : List (Row Terminal Nonterminal) :=
  [reduces 65]

/-- The states of `Parser.hs`, by number. -/
def rows : List (Row Terminal Nonterminal) :=
  rows0 ++ rows20 ++ rows40 ++ rows60 ++ rows80 ++ rows100 ++ rows120 ++ rows140

/-- The automaton of `Parser.hs`. -/
def table : Table Terminal Nonterminal := .ofRows rows

/-! ## The certificate of the automaton

What the checks of `Machinery/ParserTables` ask for, each evaluated once on the tables. -/

/-- The productions that an `Expr0` can begin with. -/
def expr0Starting : List ℕ :=
  [5, 6, 7, 8, 9, 10, 11, 14, 15, 16, 17, 18, 19, 20, 32, 36, 44, 50, 51, 52, 53, 54, 55, 56]

/-- The productions that `Exprs` can begin with. -/
def exprsStarting : List ℕ := [1, 2, 3, 4, 46, 47, 48] ++ expr0Starting

/-- The productions that a nonterminal behind another symbol can begin with. -/
def starting : Nonterminal → List ℕ
  | .start => 0 :: exprsStarting
  | .exprs => exprsStarting
  | .expr0 => expr0Starting
  | .expr0s => [12, 13] ++ expr0Starting
  | .datum => [21, 22, 23, 24, 25, 26, 27]
  | .datumStar => [21, 22, 23, 24, 25, 26, 27, 28, 29]
  | .operator => 33 :: expr0Starting
  | .operands => [34, 35]
  | .formals => [37, 38, 39, 44]
  | .varStar => [40, 41, 44]
  | .varPlus => [42, 43, 44]
  | .var => [44]
  | .body => 45 :: exprsStarting
  | .condClauseStar => [57, 58, 59, 60, 61, 62, 63]
  | .condClausePlus => [57, 58, 59, 60, 61, 64]
  | .caseClauseStar => [61, 65, 66, 67, 68]
  | .bindings => [69, 70, 71]
  | _ => []

/-- The positions before these productions. -/
def starts (n : Nonterminal) : List (ℕ × ℕ) := (starting n).map fun k => (k, 0)

/-- The positions of each state. -/
def items : List (List (ℕ × ℕ)) :=
  [ -- from 0
    starts .start, [], [(0, 1)], [(2, 1)] ++ starts .exprs, [(3, 1)], [(6, 1)], [(14, 1)], [(7, 1)],
    [(8, 1)], [(5, 1)],
    -- from 10
    [(4, 1)], [(9, 1)], [(10, 1)], [(11, 1)],
    [(20, 1), (32, 1), (36, 1), (46, 1), (47, 1), (48, 1), (50, 1), (51, 1), (52, 1), (53, 1),
      (54, 1), (55, 1), (56, 1)] ++ starts .operator,
    [(19, 1)] ++ starts .datum, [(44, 1)], [(18, 1)], [(15, 1)], [(17, 1)],
    -- from 20
    [(16, 1)], [(19, 2)], [(26, 1), (27, 1)] ++ starts .datumStar, [(25, 1)], [(24, 1)], [(21, 1)],
    [(23, 1)], [(22, 1)], [(33, 1)], [(32, 2)] ++ starts .operands,
    -- from 30
    [(20, 1), (32, 1), (36, 1), (50, 1), (51, 1), (52, 1), (53, 1), (54, 1), (55, 1), (56, 1)]
      ++ starts .operator,
    [(46, 2), (47, 2), (48, 2)] ++ starts .var, [(36, 2)] ++ starts .formals,
    [(50, 2)] ++ starts .expr0, [(51, 2)] ++ starts .var, [(52, 2)] ++ starts .condClausePlus,
    [(53, 2)] ++ starts .expr0, [(54, 2)] ++ starts .expr0s, [(55, 2)] ++ starts .expr0s, [(56, 2)],
    -- from 40
    [(20, 2)] ++ starts .datum, [(2, 2)], [(20, 3)], [(56, 3)] ++ starts .bindings,
    [(13, 1)] ++ starts .expr0s, [(55, 3)], [(54, 3)], [(53, 3)] ++ starts .caseClauseStar,
    [(64, 1)] ++ starts .condClauseStar, [(60, 1)],
    -- from 50
    [(52, 3)], [(57, 1), (58, 1), (59, 1), (61, 1)] ++ starts .expr0, [(51, 3)] ++ starts .expr0,
    [(50, 3)] ++ starts .expr0, [(36, 3)] ++ starts .body, [(37, 1)],
    [(38, 1), (39, 1)] ++ starts .varStar ++ starts .varPlus, [(46, 3)] ++ starts .expr0,
    [(47, 3), (48, 3)] ++ starts .var, [(32, 3), (35, 1)] ++ starts .expr0,
    -- from 60
    [(29, 1)] ++ starts .datumStar, [(26, 2), (27, 2)], [(26, 3)], [(27, 3)] ++ starts .datum,
    [(29, 2)], [(35, 2)], [(32, 4)], [(47, 4), (48, 4)] ++ starts .varStar ++ starts .varPlus,
    [(46, 4)], [(38, 2)],
    -- from 70
    [(39, 2)], [(41, 1), (42, 1), (43, 1)] ++ starts .varStar ++ starts .varPlus, [(45, 1)],
    [(36, 4)], [(50, 4)] ++ starts .expr0, [(51, 4)], [(57, 2), (58, 2), (59, 2)] ++ starts .expr0,
    [(61, 2)] ++ starts .expr0, [(52, 4)], [(63, 1)] ++ starts .condClauseStar,
    -- from 80
    [(64, 2)], [(66, 1)], [(68, 1)] ++ starts .caseClauseStar, [(53, 4)], [(61, 1), (65, 1)],
    [(54, 4)], [(55, 4)], [(13, 2)], [(71, 1)] ++ starts .bindings, [(56, 4)],
    -- from 90
    [(69, 1)] ++ starts .var, [(20, 4)], [(69, 2)] ++ starts .expr0, [(56, 5)] ++ starts .body,
    [(71, 2)], [(65, 2)] ++ starts .datumStar, [(53, 5)], [(68, 2)], [(63, 2)],
    [(61, 3)] ++ starts .expr0s,
    -- from 100
    [(57, 3)] ++ starts .expr0s, [(58, 3)], [(59, 3)] ++ starts .expr0, [(51, 5)], [(50, 5)],
    [(36, 5)], [(41, 2)], [(43, 2)], [(39, 3)] ++ starts .var, [(38, 3)],
    -- from 110
    [(46, 5)], [(47, 5)], [(48, 5)], [(27, 4)], [(27, 5)], [(48, 6)] ++ starts .var,
    [(47, 6)] ++ starts .body, [(39, 4)], [(50, 6)], [(59, 4)],
    -- from 120
    [(57, 4)], [(61, 4)], [(65, 3)], [(56, 6)], [(69, 3)], [(69, 4)], [(56, 7)],
    [(65, 4)] ++ starts .expr0, [(61, 5)], [(57, 5)],
    -- from 130
    [(59, 5)], [(39, 5)], [(47, 7)], [(48, 7)], [(48, 8)] ++ starts .body, [(47, 8)],
    [(65, 5)] ++ starts .expr0s, [(65, 6)], [(48, 9)], [(48, 10)],
    -- from 140
    [(65, 7)]]

/-- What an `Expr0` can begin with. -/
def expr0First : List Terminal :=
  [.leftpar, .tick, .id, .string, .bool, .char, .number]

/-- What a `Datum` can begin with. -/
def datumFirst : List Terminal := [.leftpar, .id, .string, .bool, .char, .number]

/-- What a nonterminal can begin with. -/
def first : Nonterminal → List Terminal
  | .start | .exprs | .expr | .expr0 | .expr0s | .operator | .operands | .body => expr0First
  | .literal => [.leftpar, .tick, .string, .bool, .char, .number]
  | .quotation => [.leftpar, .tick]
  | .datum | .datumStar | .datumPlus => datumFirst
  | .procCall | .lambda | .definition | .ifExp | .assignment | .derivedExpr | .condClause
  | .elseClause | .condClauseStar | .condClausePlus | .caseClause | .caseClauseStar | .bind
  | .bindings => [.leftpar]
  | .formals => [.leftpar, .id]
  | .varStar | .varPlus | .var => [.id]
  | .definitions => []

/-- The tokens that can follow a nonterminal. -/
def followTokens : Nonterminal → List Terminal
  | .start | .datumPlus | .definitions => []
  | .exprs | .expr0s | .varStar | .body | .condClauseStar | .condClausePlus | .caseClauseStar
  | .bindings => [.rightpar]
  | .expr | .operator | .operands | .formals | .definition => expr0First ++ [.rightpar]
  | .expr0 | .literal | .quotation | .procCall | .lambda | .ifExp | .assignment | .derivedExpr =>
    expr0First ++ [.rightpar, .rightarrow]
  | .datum | .var => expr0First ++ [.rightpar, .point, .rightarrow]
  | .datumStar => [.rightpar, .point]
  | .varPlus => [.point]
  | .condClause | .elseClause | .caseClause | .bind => [.leftpar, .rightpar]

/-- The nonterminals that the tokens can end with. -/
def lasts : List Nonterminal :=
  [.exprs, .expr, .expr0, .literal, .quotation, .datum, .procCall, .lambda, .var, .definition,
    .ifExp, .assignment, .derivedExpr]

/-- What can follow a nonterminal. -/
def follow (n : Nonterminal) : List (Option Terminal) :=
  (followTokens n).map some ++ if n ∈ lasts then [none] else []

/-- The certificate. -/
def slr : Table.Slr Terminal Nonterminal where
  items := items
  nullable := [.start, .exprs, .expr0s, .datumStar, .operands, .varStar, .body, .definitions,
    .condClauseStar, .caseClauseStar, .bindings]
  first := first
  follow := follow

/-- What is known of the stack comes of the positions. -/
def past : Table.Past Terminal Nonterminal := slr.past grammar

/-- The ranks of the states. -/
def ranks : Table.Ranks where
  ranks := [2, 0, 0, 3, 4, 5, 6, 5, 5, 5, 4, 5, 5, 5, 0, 0, 6, 6, 6, 6, 6, 6, 2, 7, 7, 7, 7, 7, 3,
    2, 0, 0, 0, 0, 0, 0, 0, 2, 2, 0, 0, 1, 0, 2, 2, 0, 0, 2, 2, 3, 0, 0, 0, 0, 3, 4, 2, 0, 0, 0,
    2, 0, 5, 0, 0, 0, 3, 2, 0, 0, 0, 2, 1, 0, 0, 0, 0, 0, 3, 2, 0, 3, 2, 0, 0, 3, 3, 0, 2, 0, 0,
    4, 0, 3, 0, 2, 2, 0, 0, 2, 2, 1, 0, 2, 0, 2, 0, 0, 0, 2, 1, 0, 0, 0, 3, 0, 3, 0, 1, 0, 0, 0,
    0, 0, 0, 0, 0, 0, 0, 0, 0, 0, 0, 0, 3, 0, 2, 0, 0, 0, 0]
  cost := 9

theorem check_past : Table.Past.check grammar rows past := by decide +kernel

theorem check_slr : slr.check grammar rows := by decide +kernel

theorem check_back : slr.checkBack grammar rows := by decide +kernel

theorem check_ranks : ranks.check grammar rows := by decide +kernel

/-- Every result is the value of a derivation. -/
def sound : Table.Sound grammar table := Table.Past.sound check_past

/-- Every derivation is found. -/
def complete : Table.Complete grammar table := Table.Slr.complete check_slr

/-- Every reduction has a state to go on with. -/
def viable : Table.Viable grammar table := Table.Slr.viable check_back

/-- Every run ends. -/
def ranking : Table.Ranking grammar table := Table.Ranks.ranking check_ranks

/-! ## The parser -/

/-- `scmParser`; every run ends within so many steps. -/
def scmParser (ts : List Token) : Option (List Expr) :=
  match Table.parse grammar table (9 * ts.length + 4) (Table.init ts) with
  | some (.exprs es) => some es
  | _ => none

variable {ts : List Token} {es : List Expr} {v : AbsSyn}

theorem parse_iff_accepts :
    Table.parse grammar table (9 * ts.length + 4) (Table.init ts) = some v ↔
      Table.Accepts grammar table ts v := by
  have hmeasure : ranking.measure (Table.init ts : Config Token AbsSyn) < 9 * ts.length + 4 := by
    change 2 + 1 + 9 * ts.length < 9 * ts.length + 4
    omega
  exact ranking.parse_iff hmeasure

theorem scmParser_eq_some :
    scmParser ts = some es ↔
      Table.parse grammar table (9 * ts.length + 4) (Table.init ts) = some (.exprs es) := by
  rw [scmParser]
  split
  · next h => rw [h, Option.some.injEq, Option.some.injEq, AbsSyn.exprs.injEq]
  · next h =>
    refine ⟨fun hnone => absurd hnone (by simp), fun hsome => absurd hsome ?_⟩
    exact h es

theorem derives_of_scmParser {ts : List Token} {es : List Expr} (h : scmParser ts = some es) :
    grammar.Derives [nt .exprs] ts [.exprs es] := by
  rw [scmParser_eq_some, parse_iff_accepts] at h
  exact (Table.accepts_iff sound complete).mp h

theorem scmParser_of_derives {ts : List Token} {es : List Expr}
    (h : grammar.Derives [nt .exprs] ts [.exprs es]) : scmParser ts = some es := by
  rw [scmParser_eq_some, parse_iff_accepts]
  exact (Table.accepts_iff sound complete).mpr h

/-- **The parser accepts exactly what the grammar derives**, and gives its expressions. -/
theorem scmParser_iff (ts : List Token) (es : List Expr) :
    scmParser ts = some es ↔ grammar.Derives [nt .exprs] ts [.exprs es] :=
  ⟨derives_of_scmParser, scmParser_of_derives⟩

/-- **The grammar is unambiguous**: the tokens of a program have one value. -/
theorem grammar_unambiguous (ts : List Token) (v v' : AbsSyn)
    (h : grammar.Derives [nt .exprs] ts [v]) (h' : grammar.Derives [nt .exprs] ts [v']) : v = v' :=
  complete.unambiguous h h'

/-- `(f x)` is a call, and no other value is derived. -/
theorem grammar_unambiguous_call :
    (.exprs [.procCall (.variable (.sym ['f'])) [.variable (.sym ['x'])]] : AbsSyn) =
        .exprs [.procCall (.variable (.sym ['f'])) [.variable (.sym ['x'])]] ∧
      ¬grammar.Derives [nt .exprs] [.leftpar, .id ['f'], .id ['x'], .rightpar]
        [.exprs [.sequence [.variable (.sym ['f']), .variable (.sym ['x'])]]] := by
  have h := derives_of_scmParser
    (show scmParser [.leftpar, .id ['f'], .id ['x'], .rightpar] = _ from rfl)
  refine ⟨grammar_unambiguous _ _ _ h h, fun h' => ?_⟩
  have heq := grammar_unambiguous _ _ _ h h'
  simp at heq

end Parser

end SchemeOs.Compiler
