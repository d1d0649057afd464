import Mathlib
import SchemeOs.Reader.Lexer

/-!
# Reader/Parser — from tokens to data

`read` turns the tokens that `makeTokenSeq` left in the array into a datum.  The functions for
lists, vectors and quoted data share one cursor into the array.  What they build is a tree: the
pairs of a list under construction are its cars and the `cdr` of the pair that `q` names.
-/

namespace SchemeOs

/-! ## Data -/

/-- What can be read.  A vector has `len` slots; `fill` is the list of those that are filled. -/
inductive Datum where
  | null
  | void
  | bool (b : Bool)
  | int (n : ℤ)
  | char (c : Char)
  | symbol (name : List Char)
  | string (text : List Char)
  | pair (car cdr : Datum)
  | vector (len : ℕ) (fill : Datum)
  deriving DecidableEq

/-- The list with the given cars and the given end. -/
def Datum.ofList (cars : List Datum) (cdr : Datum) : Datum := cars.foldr .pair cdr

/-- `atoi`: white space, a sign and digits.  A `long` has 32 bits, and `strtol` stops at its
bounds. -/
def atoi (text : List Char) : ℤ :=
  let digits (s : List Char) : ℕ :=
    (s.takeWhile isdigit).foldl (fun i c => 10 * i + (c.toNat - '0'.toNat)) 0
  match text.dropWhile isspace with
  | '-' :: s => -min (digits s : ℤ) (2 ^ 31)
  | '+' :: s => min (digits s : ℤ) (2 ^ 31 - 1)
  | s => min (digits s : ℤ) (2 ^ 31 - 1)

/-! ## Tokens as data -/

section Parser

variable (buffers : Buffers)

/-- The characters from `k` on up to a NUL, of which there is one before the end of the array. -/
def textFrom : ℕ → ℕ → Option (List Char)
  | 0, _ => none
  | n + 1, k =>
    (buffers.scan k).bind fun c => if c = '\x00' then some [] else (textFrom n (k + 1)).map (c :: ·)

/-- The text of a token. -/
def tokenText (token : Token) : Option (List Char) :=
  token.token.bind fun k => textFrom buffers (schemeMaxExprLen - k) k

def tokenToObj (token : Token) : Option Datum :=
  match token.type with
  | .symbol => (tokenText buffers token).map .symbol
  | .true => some (.bool true)
  | .false => some (.bool false)
  | .number => (tokenText buffers token).map fun text => .int (atoi text)
  | .char => (token.token.bind buffers.scan).map .char
  | .string => (tokenText buffers token).map .string
  | _ => some .void

/-! ## Lists, vectors and quoted data -/

/-- A computation on `*token_list`, as an index; it fails when it leaves an array. -/
abbrev Parse := StateT ℕ Option

/-- `(*token_list)->type` -/
def peekType : Parse TokenType := fun k => (buffers.tokens k).map fun t => (t.type, k)

/-- `(*token_list)++` -/
def advance : Parse Unit := modify (· + 1)

/-- `_token_to_obj(*token_list)` -/
def peekObj : Parse Datum := fun k =>
  (buffers.tokens k).bind fun t => (tokenToObj buffers t).map fun d => (d, k)

/-- The list under construction in `_create_list`: the cars of the pairs from `l` to `q`, what
follows them, and whether `q` is a pair. -/
structure Cells where
  cars : List Datum
  cdr : Datum
  isPair : Bool

/-- `SCHEME_SET_CDR(q, p)` and `q = p` -/
def Cells.link (q : Cells) : Datum → Cells
  | .pair car cdr => ⟨q.cars ++ [car], cdr, true⟩
  | p => ⟨q.cars, p, false⟩

/-- The loop of `_create_vector` over the tokens from `k` on that counts the elements. -/
def vectorLen : ℕ → ℕ → ℤ → ℕ → Option ℕ
  | 0, _, _, _ => none
  | n + 1, k, par, len =>
    (buffers.tokens k).bind fun t =>
      if t.type = .tagEnd ∨ par < 0 then
        some len
      else
        match t.type with
        | .leftPar | .leftSharpar => vectorLen n (k + 1) (par + 1) len
        | .rightPar =>
          vectorLen n (k + 1) (par - 1) (if par - 1 = 0 then len + 1 else len)
        | _ => vectorLen n (k + 1) par (if par = 0 then len + 1 else len)

mutual

/-- The loop of `_create_list`. -/
def createListLoop : ℕ → Bool → Cells → Parse Datum
  | 0, _, _ => failure
  | n + 1, issexp, q => do
    match ← peekType buffers with
    | .tagEnd | .rightPar => do
      advance
      return .ofList q.cars q.cdr
    | .leftPar => do
      advance
      appendList n issexp q (← createList n)
    | .leftSharpar => do
      advance
      appendList n issexp q (← createVector n)
    | .quote => do
      advance
      appendList n issexp q (← createQuoted n)
    | .point => do
      advance
      if issexp then return .void else createListLoop n true q
    | _ => do
      let car ← peekObj buffers
      advance
      appendList n issexp q car

/-- The rest of the loop of `_create_list`, with the next element. -/
def appendList : ℕ → Bool → Cells → Datum → Parse Datum
  | 0, _, _, _ => failure
  | n + 1, issexp, q, car => do
    if issexp ∧ q.cars = [] then
      return .void
    else
      let p := if issexp then car else .pair car .null
      if q.cars = [] ∨ q.isPair then createListLoop n issexp (q.link p) else return .void

def createList : ℕ → Parse Datum
  | 0 => failure
  | n + 1 => createListLoop n false ⟨[], .null, false⟩

/-- The second loop of `_create_vector`. -/
def createVectorLoop : ℕ → ℕ → List Datum → Parse Datum
  | 0, _, _ => failure
  | n + 1, len, fill => do
    match ← peekType buffers with
    | .tagEnd | .rightPar => do
      advance
      return .vector len (.ofList fill .null)
    | .leftPar => do
      advance
      appendVector n len fill (← createList n)
    | .leftSharpar => do
      advance
      appendVector n len fill (← createVector n)
    | _ => do
      let d ← peekObj buffers
      advance
      appendVector n len fill d

/-- `*fill++ = d`, and the rest of the loop. -/
def appendVector : ℕ → ℕ → List Datum → Datum → Parse Datum
  | 0, _, _, _ => failure
  | n + 1, len, fill, d =>
    if fill.length < len then createVectorLoop n len (fill ++ [d]) else failure

def createVector : ℕ → Parse Datum
  | 0 => failure
  | n + 1 => do
    let len ← vectorLen buffers n (← get) 0 0
    createVectorLoop n len []

def createQuoted : ℕ → Parse Datum
  | 0 => failure
  | n + 1 => do
    match ← peekType buffers with
    | .leftPar => do
      advance
      return quoted (← createList n)
    | .rightPar => return .void
    | .leftSharpar => do
      advance
      return quoted (← createVector n)
    | .quote => do
      advance
      return quoted (← createQuoted n)
    | _ => do
      let text ← peekObj buffers
      advance
      return quoted text
where
  /-- The end of `_create_quoted`. -/
  quoted (text : Datum) : Datum :=
    .pair (.symbol ['q', 'u', 'o', 't', 'e']) (.pair text .null)

end

/-- `read`, once the tokens are in the array. -/
def readTokens (n : ℕ) : Parse Datum := do
  match ← peekType buffers with
  | .leftPar => do
    advance
    createList buffers n
  | .rightPar => return .void
  | .leftSharpar => do
    advance
    createVector buffers n
  | .quote => do
    advance
    createQuoted buffers n
  | _ => peekObj buffers

end Parser

/-- `scheme_read`: the datum, and the arrays and the port after it. -/
def schemeRead (n : ℕ) (buffers : Buffers) (port : List Char) :
    Option (Datum × Buffers × List Char) :=
  (makeTokenSeq n buffers port).bind fun r =>
    ((readTokens r.1 n).run 0).map fun d => (d.1, r)

end SchemeOs
