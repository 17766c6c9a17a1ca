import RealMode.Json.Basic
import RealMode.Text.Numeral

/-! Reading JSON texts.

The grammar is strict: no comments, no trailing commas, no leading zeros, no raw control
characters in strings. Nesting may be of any depth. -/

set_option autoImplicit false

namespace RealMode.Json

def isSpace (char : Char) : Bool :=
  char = ' ' || char = '\n' || char = '\t' || char = '\r'

def skipSpace (text : List Char) : List Char := text.dropWhile isSpace

/-- The character that a backslash and a letter stand for. -/
def unescape? : Char → Option Char
  | '"' => some '"'
  | '\\' => some '\\'
  | '/' => some '/'
  | 'b' => some '\x08'
  | 'f' => some '\x0c'
  | 'n' => some '\n'
  | 'r' => some '\r'
  | 't' => some '\t'
  | _ => none

/-- Reads a string behind its opening quote, as code points and surrogates. -/
def scanUnits : List Char → List Nat → Option (List Nat × List Char)
  | [], _ => none
  | '"' :: rest, units => some (units.reverse, rest)
  | '\\' :: 'u' :: a :: b :: c :: d :: rest, units => do
      let unit ← Numeral.ofHex? [a, b, c, d]
      scanUnits rest (unit :: units)
  | '\\' :: letter :: rest, units => do
      let char ← unescape? letter
      scanUnits rest (char.toNat :: units)
  | char :: rest, units =>
      if char.toNat < 0x20 then none else scanUnits rest (char.toNat :: units)

def isHighSurrogate (unit : Nat) : Bool := 0xD800 ≤ unit && unit < 0xDC00
def isLowSurrogate (unit : Nat) : Bool := 0xDC00 ≤ unit && unit < 0xE000

/-- Joins surrogate pairs to characters, if all surrogates stand in pairs. -/
def joinUnits? : List Nat → Option (List Char)
  | [] => some []
  | [unit] =>
      if isHighSurrogate unit || isLowSurrogate unit then none else some [Char.ofNat unit]
  | unit :: next :: rest =>
      if isHighSurrogate unit && isLowSurrogate next then do
        let chars ← joinUnits? rest
        some (Char.ofNat (0x10000 + (unit - 0xD800) * 0x400 + (next - 0xDC00)) :: chars)
      else if isHighSurrogate unit || isLowSurrogate unit then none
      else do
        let chars ← joinUnits? (next :: rest)
        some (Char.ofNat unit :: chars)

def contentsOf (units : List Nat) : Contents :=
  match joinUnits? units with
  | some chars => .chars (String.ofList chars)
  | none => .unpaired

def literal? (text : List Char) : Option (Contents × List Char) := do
  let (units, rest) ← scanUnits text []
  some (contentsOf units, rest)

/-- Reads digits of which there must be one. -/
def digits? (text : List Char) : Option (List Char × List Char) :=
  match text.takeWhile Char.isDigit with
  | [] => none
  | digits => some (digits, text.dropWhile Char.isDigit)

/-- Reads the fraction of a number where there is one. -/
def fraction? : List Char → Option (List Char × List Char)
  | '.' :: rest => (digits? rest).map fun read => ('.' :: read.1, read.2)
  | text => some ([], text)

/-- Reads the sign of an exponent where there is one. -/
def sign : List Char → List Char × List Char
  | '+' :: rest => (['+'], rest)
  | '-' :: rest => (['-'], rest)
  | text => ([], text)

/-- Reads the exponent of a number behind its letter. -/
def power? (letter : Char) (text : List Char) : Option (List Char × List Char) := do
  let (sign, rest) := sign text
  let (digits, rest) ← digits? rest
  some (letter :: sign ++ digits, rest)

/-- Reads the exponent of a number where there is one. -/
def exponent? : List Char → Option (List Char × List Char)
  | 'e' :: rest => power? 'e' rest
  | 'E' :: rest => power? 'E' rest
  | text => some ([], text)

/-- The number of digits of the longest integer that is taken as such. No field of a record is
longer. -/
def integerDigits : Nat := 20

/-- Reads a number behind its sign. A plain integer is taken as such, but there is no integer
that is a negative zero. -/
def unsigned? (negative : Bool) (text : List Char) : Option (Json × List Char) := do
  let (digits, rest) ← digits? text
  if digits.length ≠ 1 ∧ digits.head? = some '0' then none
  let (fraction, rest) ← fraction? rest
  let (exponent, rest) ← exponent? rest
  let isInteger := fraction.isEmpty && exponent.isEmpty && digits.length ≤ integerDigits
  if isInteger && !(negative && digits == ['0']) then
    let magnitude := Nat.ofDigitChars 10 digits 0
    some (.int (if negative then -magnitude else magnitude), rest)
  else
    let spelling := digits ++ fraction ++ exponent
    some (.real (String.ofList (if negative then '-' :: spelling else spelling)), rest)

def number? : List Char → Option (Json × List Char)
  | '-' :: rest => unsigned? true rest
  | text => unsigned? false text

def keyword? : List Char → Option (Json × List Char)
  | 'n' :: 'u' :: 'l' :: 'l' :: rest => some (.null, rest)
  | 't' :: 'r' :: 'u' :: 'e' :: rest => some (.bool true, rest)
  | 'f' :: 'a' :: 'l' :: 's' :: 'e' :: rest => some (.bool false, rest)
  | _ => none

/-- Reads the key of a member and the colon behind it. -/
def key? (text : List Char) : Option (Contents × List Char) :=
  match skipSpace text with
  | '"' :: rest => do
      let (key, rest) ← literal? rest
      match skipSpace rest with
      | ':' :: rest => some (key, rest)
      | _ => none
  | _ => none

mutual
/-- Reads a value. The depth counts down with each value and each element. -/
def value? : (depth : Nat) → List Char → Option (Json × List Char)
  | 0, _ => none
  | depth + 1, text =>
      match skipSpace text with
      | '"' :: rest => do
          let (contents, rest) ← literal? rest
          some (.str contents, rest)
      | '[' :: rest =>
          match skipSpace rest with
          | ']' :: rest => some (.arr [], rest)
          | rest => do
              let (items, rest) ← items? depth rest
              some (.arr items, rest)
      | '\x7b' :: rest =>
          match skipSpace rest with
          | '\x7d' :: rest => some (.obj [], rest)
          | rest => do
              let (members, rest) ← members? depth rest
              some (.obj members, rest)
      | text => (keyword? text).or (number? text)

/-- Reads the elements of an array, of which there must be one, up to the bracket. -/
def items? : (depth : Nat) → List Char → Option (List Json × List Char)
  | 0, _ => none
  | depth + 1, text => do
      let (item, rest) ← value? depth text
      match skipSpace rest with
      | ',' :: rest => do
          let (items, rest) ← items? depth rest
          some (item :: items, rest)
      | ']' :: rest => some ([item], rest)
      | _ => none

/-- Reads the members of an object, of which there must be one, up to the brace. -/
def members? : (depth : Nat) → List Char → Option (List (Contents × Json) × List Char)
  | 0, _ => none
  | depth + 1, text => do
      let (key, rest) ← key? text
      let (value, rest) ← value? depth rest
      match skipSpace rest with
      | ',' :: rest => do
          let (members, rest) ← members? depth rest
          some ((key, value) :: members, rest)
      | '\x7d' :: rest => some ([(key, value)], rest)
      | _ => none
end

/-- Reads a text that holds one value and nothing else. A value takes one step and an element
of an array or object one more, and each of these pairs of steps uses up a character. -/
def parse? (text : String) : Option Json := do
  let chars := text.toList
  let (value, rest) ← value? (2 * chars.length + 2) chars
  match skipSpace rest with
  | [] => some value
  | _ => none

end RealMode.Json
