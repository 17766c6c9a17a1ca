/-! Numbers as texts write them: hexadecimal of a least width in either case, and
decimal with an explicit sign. Hexadecimal is also read, as a number and as bytes. -/

set_option autoImplicit false

namespace RealMode.Numeral

/-- Fills a digit string up to a least width with zeros in front. -/
def pad (width : Nat) (digits : List Char) : List Char :=
  List.replicate (width - digits.length) '0' ++ digits

/-- Upper-case hexadecimal, at least `width` digits. -/
def hex (width value : Nat) : String :=
  String.ofList (pad width ((Nat.toDigits 16 value).map Char.toUpper))

/-- Lower-case hexadecimal behind `0x`, at least `width` digits. -/
def hexLiteral (width value : Nat) : String :=
  "0x" ++ String.ofList (pad width (Nat.toDigits 16 value))

def decimal (value : Nat) : String := Nat.repr value

/-- Decimal with a sign also for what is not negative. -/
def signed (value : Int) : String :=
  (if value < 0 then "-" else "+") ++ decimal value.natAbs

/-- The value of a hexadecimal digit of either case. -/
def digit? (digit : Char) : Option Nat :=
  if '0' ≤ digit ∧ digit ≤ '9' then some (digit.toNat - '0'.toNat)
  else if 'a' ≤ digit ∧ digit ≤ 'f' then some (digit.toNat - 'a'.toNat + 10)
  else if 'A' ≤ digit ∧ digit ≤ 'F' then some (digit.toNat - 'A'.toNat + 10)
  else none

/-- Reads hexadecimal digits behind the digits read so far. -/
def hexFrom? (value : Nat) : List Char → Option Nat
  | [] => some value
  | digit :: rest => do hexFrom? (value * 16 + (← digit? digit)) rest

/-- Reads a number of one hexadecimal digit or more. -/
def ofHex? : List Char → Option Nat
  | [] => none
  | digits => hexFrom? 0 digits

/-- Reads bytes of two hexadecimal digits each behind the bytes read so far. -/
def bytesFrom? (bytes : Array UInt8) : List Char → Option (Array UInt8)
  | [] => some bytes
  | high :: low :: rest => do
      let value := 16 * (← digit? high) + (← digit? low)
      bytesFrom? (bytes.push (UInt8.ofNat value)) rest
  | [_] => none

/-- Reads a text of bytes, two hexadecimal digits each. -/
def bytes? (text : String) : Option (Array UInt8) := bytesFrom? #[] text.toList

end RealMode.Numeral
