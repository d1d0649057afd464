import SchemeOs.Machinery.Fuel
import Mathlib.Logic.Function.Basic

/-!
# Reader/Lexer — from characters to tokens

`makeTokenSeq` reads the characters of one datum from a port and puts its tokens into a static
array, and their texts into another.  Both arrays are used by every read and never cleared.  An
array is a partial function: it has no value outside of its bounds.
-/

namespace SchemeOs

/-! ## Characters -/

/-- `EOF`, as a character. -/
def EOF : Char := '\xff'

/-- The value of a `char`, which is signed. -/
def charVal (c : Char) : ℤ :=
  if c.toNat < 0x80 then c.toNat else c.toNat % 0x100 - 0x100

def isspace (c : Char) : Bool :=
  c = '\x0b' || c = '\t' || c = ' ' || c = '\n' || c = '\r' || c = '\x0c'

def isdigit (c : Char) : Bool := charVal c ≤ charVal '9' && charVal c ≥ charVal '0'

def isprint (c : Char) : Bool := charVal c ≤ 0x7e && charVal c ≥ 0x20

/-- `scheme_port_get_char` for a character stream: the port is the memory from the next character
on, and a NUL in it is the end of the text.  The offset moves on even there. -/
def schemePortGetChar : List Char → Char × List Char
  | [] => (EOF, [])
  | c :: port => (if c = '\x00' then EOF else c, port)

/-! ## Tokens

The static arrays keep what earlier reads have left in them, so that a read starts from any of
them. -/

/-- `Scheme_token_type_t`, as far as it is used, and the type `-1`. -/
inductive TokenType where
  | null | leftPar | rightPar | leftSharpar | quote | backquote | comma | commaAt | point
  | symbol | true | false | number | char | string
  | number2 | number8 | number10 | number16 | inexact | exact | tagEnd
  deriving DecidableEq, Repr

/-- `Scheme_token_t`: the text is an index into `_lex_scan_buff`. -/
structure Token where
  type : TokenType
  token : Option ℕ
  deriving DecidableEq, Repr

/-- `SCHEME_MAX_EXPR_LEN` -/
def schemeMaxExprLen : ℕ := 64 * 1024

/-- The length of `_lex_token_buff`. -/
def lexTokenMax : ℕ := 1024

/-- The static arrays `_lex_scan_buff` and `_lex_token_buff`. -/
structure Buffers where
  scan : ℕ → Option Char
  tokens : ℕ → Option Token

/-- The arrays before the first read. -/
def Buffers.init : Buffers where
  scan k := if k < schemeMaxExprLen then some '\x00' else none
  tokens k := if k < lexTokenMax then some ⟨.null, none⟩ else none

/-- The port, the arrays and the variables of `_make_token_seq`. -/
structure Lexer extends Buffers where
  port : List Char
  i : ℕ
  s : ℕ
  stack : ℤ
  stat : Bool
  isfloat : Bool
  finished : Bool

/-- A computation of the lexer; it fails when it leaves an array. -/
abbrev LexM := StateT Lexer Option

namespace LexM

def getChar : LexM Char := fun l =>
  let (c, port) := schemePortGetChar l.port
  some (c, { l with port })

/-- `isprint(c = scheme_port_get_char(port))`.  `isprint` is a macro with two comparisons, and
each of them gets a character: the test is about the second, unless the first one fails. -/
def getPrint : LexM (Char × Bool) := do
  let c ← getChar
  if charVal c ≤ 0x7e then
    let c ← getChar
    return (c, charVal c ≥ 0x20)
  else
    return (c, false)

/-- `s[k] = c` -/
def store (k : ℕ) (c : Char) : LexM Unit := fun l =>
  if k < schemeMaxExprLen then some ((), { l with scan := Function.update l.scan k (some c) })
  else none

/-- `*s++ = c` -/
def putChar (c : Char) : LexM Unit := do
  store (← get).s c
  modify fun l => { l with s := l.s + 1 }

/-- `_lex_token_buff[i].type` -/
def tokenType : LexM TokenType := fun l => (l.tokens l.i).map fun t => (t.type, l)

/-- `_lex_token_buff[i].type = t` -/
def setType (t : TokenType) : LexM Unit := fun l =>
  if l.i < lexTokenMax then
    some ((), { l with
      tokens := Function.update l.tokens l.i (some ⟨t, (l.tokens l.i).bind Token.token⟩) })
  else none

/-- `_lex_token_buff[i].token = s`, after the type of the token -/
def setToken : LexM Unit := fun l =>
  (l.tokens l.i).map fun t =>
    ((), { l with tokens := Function.update l.tokens l.i (some ⟨t.type, some l.s⟩) })

/-- `i++` -/
def nextToken : LexM Unit := modify fun l => { l with i := l.i + 1 }

/-- `_lex_token_buff[i++].type = t` -/
def pushType (t : TokenType) : LexM Unit := do
  setType t
  nextToken

/-- The first character of a word of type `t`. -/
def beginWord (t : TokenType) : LexM Unit := do
  setType t
  setToken
  modify fun l => { l with stat := true }

/-- The end of a word. -/
def endWord : LexM Unit := do
  modify fun l => { l with stat := false }
  putChar '\x00'
  nextToken

end LexM

open LexM

/-! ## `_make_token_seq`

The loop, its switch and the loops inside of it, each with fuel. -/

/-- The loop over the characters of a string. -/
def lexString : ℕ → LexM Unit
  | 0 => failure
  | n + 1 => do
    let (c, print) ← getPrint
    if print then do
      putChar c
      if c = '\\' then do
        let c ← getChar
        if c = '"' ∨ c = '\\' then store ((← get).s - 1) c else putChar c
        lexString n
      else if c = '"' then
        store ((← get).s - 1) '\x00'
      else
        lexString n
    else
      return ()

/-- The loop over the characters after `#\`. -/
def lexChar : ℕ → LexM Unit
  | 0 => failure
  | n + 1 => do
    let (c, print) ← getPrint
    if print then do
      if isspace c ∨ c = EOF then
        return ()
      else do
        putChar c
        lexChar n
    else
      return ()

/-- The character after a `#` that is not in a word. -/
def lexSharp (n : ℕ) : LexM Unit := do
  match ← getChar with
  | '(' => do
    pushType .leftSharpar
    modify fun l => { l with stack := l.stack + 1 }
  | 't' => pushType .true
  | 'f' => pushType .false
  | '\\' => do
    setType .char
    setToken
    nextToken
    lexChar n
    putChar '\x00'
  | 'b' => pushType .number2
  | 'o' => pushType .number8
  | 'd' => pushType .number10
  | 'x' => pushType .number16
  | 'i' => pushType .inexact
  | 'e' => pushType .exact
  | _ => return ()

/-- The `default` of the `switch`. -/
def lexWord (c : Char) : LexM Unit := do
  if isdigit c then
    if (← get).stat = false then
      beginWord .number
    else if (← tokenType) = .point then do
      setType .number
      modify fun l => { l with isfloat := true }
  else if isprint c then
    if (← get).stat = false then
      beginWord .symbol
    else if (← tokenType) = .number then
      setType .symbol
  putChar c

def lexPoint : LexM Unit := do
  if (← get).stat = false then
    beginWord .point
  else if (← get).isfloat then
    setType .symbol
  else if (← tokenType) = .number then
    modify fun l => { l with isfloat := true }
  putChar '.'

/-- The `switch`, but for the comma. -/
def lexSwitch (n : ℕ) (c : Char) : LexM Unit := do
  match c with
  | '(' => do
    pushType .leftPar
    modify fun l => { l with stat := false, stack := l.stack + 1 }
  | ')' => do
    if (← get).stat then endWord
    pushType .rightPar
    modify fun l => { l with stack := l.stack - 1, finished := l.finished || l.stack - 1 = 0 }
  | '"' => do
    if (← get).stat then endWord
    setType .string
    setToken
    nextToken
    lexString n
  | '#' => if (← get).stat then putChar '#' else lexSharp n
  | '\'' => pushType .quote
  | '`' => pushType .backquote
  | '@' => if (← get).stat = false then beginWord .symbol
  | '.' => lexPoint
  | c => lexWord c

mutual

/-- The loop over the characters of the port. -/
def lexLoop : ℕ → LexM Unit
  | 0 => failure
  | n + 1 => do
    let c ← getChar
    if c = EOF then
      return ()
    else
      nextLoop n c

/-- The loop from `__next_loop` on. -/
def nextLoop : ℕ → Char → LexM Unit
  | 0, _ => failure
  | n + 1, c => do
    if isspace c then
      if (← get).stat then do
        modify fun l => { l with isfloat := false }
        endWord
        if (← get).stack = 0 then return () else lexLoop n
      else
        lexLoop n
    else if c = ',' then do
      let c ← getChar
      if c = '@' then do
        pushType .commaAt
        if (← get).finished then return () else lexLoop n
      else do
        pushType .comma
        nextLoop n c
    else do
      lexSwitch n c
      if (← get).finished then return () else lexLoop n

end

/-- `_make_token_seq`, but for its variables. -/
def lexTokens (n : ℕ) : LexM Unit := do
  lexLoop n
  if (← get).stat then do
    store (← get).s '\x00'
    nextToken
  setType .tagEnd

/-- `_make_token_seq` -/
def makeTokenSeq (n : ℕ) (buffers : Buffers) (port : List Char) : Option (Buffers × List Char) :=
  ((lexTokens n).run ⟨buffers, port, 0, 0, 0, false, false, false⟩).map fun r =>
    (r.2.toBuffers, r.2.port)

end SchemeOs
