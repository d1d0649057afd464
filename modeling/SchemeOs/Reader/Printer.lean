import SchemeOs.Reader.Parser

/-!
# Reader/Printer — from data to characters

`schemeObjToString` writes a datum into a buffer and returns how much it wrote.  Here it returns
the characters it wrote, without the NUL after them.  A list is written with a blank after each of
its elements, and the last blank is then overwritten.
-/

namespace SchemeOs

/-! ## Numbers -/

/-- `'0' + n` -/
def digitChar (n : ℕ) : Char := Char.ofNat ('0'.toNat + n)

/-- The digits of `numb` from `t = 10 ^ k` on. -/
def itoaDigits : ℕ → ℕ → List Char
  | 0, numb => [digitChar numb]
  | k + 1, numb => digitChar (numb / 10 ^ (k + 1)) :: itoaDigits k (numb % 10 ^ (k + 1))

/-- The loop that looks for the first digit, from `t = 10 ^ k` down. -/
def itoaStart : ℕ → ℕ → ℕ
  | 0, _ => 0
  | k + 1, numb => if numb / 10 ^ (k + 1) = 0 then itoaStart k numb else k + 1

/-- `__itoaU_dec` -/
def itoaUDec (numb : ℕ) : List Char :=
  if numb = 0 then ['0'] else itoaDigits (itoaStart 9 numb) numb

/-- `__HEXTOASCII` -/
def hexToAscii (d : ℕ) : Char :=
  if d ≤ 9 then Char.ofNat ('0'.toNat + d) else Char.ofNat ('A'.toNat + d - 10)

/-- The first loop of `__itoaU_hex`: leading zeros are shifted out of the 32 bits. -/
def skipZeros : ℕ → ℕ → ℕ × ℕ
  | 0, numb => (0, numb)
  | ct + 1, numb =>
    if numb / 2 ^ 28 = 0 then skipZeros ct (numb * 2 ^ 4 % 2 ^ 32) else (ct + 1, numb)

/-- The second loop of `__itoaU_hex`. -/
def hexDigits : ℕ → ℕ → List Char
  | 0, _ => []
  | ct + 1, numb => hexToAscii (numb / 2 ^ 28) :: hexDigits ct (numb * 2 ^ 4 % 2 ^ 32)

/-- `__itoaU_hex` -/
def itoaUHex (numb : ℕ) : List Char :=
  if numb = 0 then ['0'] else hexDigits (skipZeros 8 numb).1 (skipZeros 8 numb).2

/-! ## Data -/

/-- Where `System.map` has `scheme_void`. -/
def schemeVoidAddress : ℕ := 0x12ce80

/-- The text of an environment, which is printed by its address. -/
def envText (address : ℕ) : List Char :=
  "#<environment 0x".toList ++ itoaUHex (address % 2 ^ 32) ++ ['>']

/-- `*(__des - 1) = ')'` -/
def endList (text : List Char) : List Char := text.dropLast ++ [')']

/-- `scheme_obj_to_string` for what is neither a pair nor a vector.  `%d` takes its argument for an
unsigned number of 32 bits.  Nothing ever sets the type of `scheme_void`, so it has the type `0` of
an environment and is printed as one. -/
def atomToString : Datum → List Char
  | .char ' ' => '#' :: '\\' :: "space".toList
  | .char '\n' => '#' :: '\\' :: "newline".toList
  | .char c => ['#', '\\', c]
  | .int n => itoaUDec (n % 2 ^ 32).toNat
  | .string text => '"' :: text ++ ['"']
  | .symbol name => name
  | .null => ['(', ')']
  | .bool true => ['#', 't']
  | .bool false => ['#', 'f']
  | .void => envText schemeVoidAddress
  | .pair _ _ | .vector _ _ => []

mutual

/-- `scheme_obj_to_string`, with `scheme_list_to_string` for pairs and `scheme_vector_to_string`
for vectors, all of whose slots are filled. -/
def schemeObjToString : Datum → List Char
  | .pair car cdr => endList ('(' :: schemeObjToString car ++ ' ' :: cellsToString cdr)
  | .vector _ fill => endList ('#' :: '(' :: cellsToString fill)
  | d => atomToString d

/-- What the loop of `scheme_list_to_string` writes from `p` on, and what follows it. -/
def cellsToString : Datum → List Char
  | .pair car cdr => schemeObjToString car ++ ' ' :: cellsToString cdr
  | .null => []
  | .vector _ fill => '.' :: ' ' :: endList ('#' :: '(' :: cellsToString fill) ++ [' ']
  | d => '.' :: ' ' :: atomToString d ++ [' ']

end

end SchemeOs
