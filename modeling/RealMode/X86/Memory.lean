import RealMode.X86.Modifiers

/-! Register numbers and memory operands. -/

set_option autoImplicit false

namespace RealMode.X86

/-- The size of an operand: a byte, a word, or a word that a modifier can make a double word. -/
inductive Size where
  | byte
  | word
  | operand
  deriving DecidableEq, Repr

namespace Size

def bits (modifiers : Modifiers) : Size → Nat
  | .byte => 8
  | .word => 16
  | .operand => modifiers.operandBits

def keyword (modifiers : Modifiers) : Size → String
  | .byte => "byte ptr "
  | .word => "word ptr "
  | .operand => if modifiers.wideOperand then "dword ptr " else "word ptr "

end Size

def byteRegisters : List String := ["al", "cl", "dl", "bl", "ah", "ch", "dh", "bh"]
def wordRegisters : List String := ["ax", "cx", "dx", "bx", "sp", "bp", "si", "di"]
def doubleRegisters : List String := ["eax", "ecx", "edx", "ebx", "esp", "ebp", "esi", "edi"]
def segmentRegisters : List String := ["es", "cs", "ss", "ds", "fs", "gs"]

/-- The general register with a number below eight. -/
def generalRegister (bits number : Nat) : String :=
  let registers :=
    if bits = 8 then byteRegisters else if bits = 16 then wordRegisters else doubleRegisters
  (registers[number]?).getD ""

/-- A memory operand. -/
structure Memory where
  segment : String
  /-- Whether the text writes the segment, which it does not for the usual one. -/
  showsSegment : Bool
  base : Option String
  index : Option String
  scale : Nat
  /-- The displacement modulo the size of an address. -/
  displacement : Nat
  addressBits : Nat
  /-- Where the displacement is encoded. -/
  constant : Option Constant
  deriving DecidableEq, Repr

namespace Memory

/-- The segment that is used with a base register. -/
def usualSegment (base : Option String) : String :=
  if base = some "bp" ∨ base = some "ebp" ∨ base = some "esp" then "ss" else "ds"

/-- The memory operand with the segment that the modifiers choose. -/
def located (modifiers : Modifiers) (base index : Option String) (scale displacement : Nat)
    (constant : Option Constant) : Memory :=
  let usual := usualSegment base
  let segment := modifiers.segment.getD usual
  ⟨segment, segment ≠ usual, base, index, scale, displacement, modifiers.addressBits,
    constant⟩

/-- Reads a displacement of a number of bytes and extends it to an address. -/
def readDisplacement (modifiers : Modifiers) (length : Nat) : Reader (Nat × Option Constant) :=
  if length = 0 then pure (0, none)
  else do
    let constant ← Constant.read length
    pure (constant.extended modifiers.addressBits, some constant)

/-- The base and index registers of 16-bit addresses by number. -/
def wordBases : List (Option String × Option String) :=
  [(some "bx", some "si"), (some "bx", some "di"), (some "bp", some "si"), (some "bp", some "di"),
    (some "si", none), (some "di", none), (some "bp", none), (some "bx", none)]

/-- Reads a 16-bit address, by the mode and number of a ModRM byte. -/
def readWordAddress (modifiers : Modifiers) (mode number : Nat) : Reader Memory :=
  if mode = 0 ∧ number = 6 then do
    let (value, constant) ← readDisplacement modifiers 2
    pure (located modifiers none none 1 value constant)
  else do
    let (base, index) := (wordBases[number]?).getD (none, none)
    let (value, constant) ← readDisplacement modifiers mode
    pure (located modifiers base index 1 value constant)

/-- The number of bytes of the displacement of a 32-bit address. -/
def doubleLength (mode : Nat) : Nat :=
  if mode = 1 then 1 else if mode = 2 then 4 else 0

/-- Reads a 32-bit address whose registers stand in a byte of their own. -/
def readScaled (modifiers : Modifiers) (mode : Nat) : Reader Memory := do
  let registers := (← Reader.byte).toNat
  let scale := 1 <<< (registers / 64)
  let index :=
    if registers / 8 % 8 = 4 then none else some (generalRegister 32 (registers / 8 % 8))
  if mode = 0 ∧ registers % 8 = 5 then do
    let (value, constant) ← readDisplacement modifiers 4
    pure (located modifiers none index scale value constant)
  else do
    let (value, constant) ← readDisplacement modifiers (doubleLength mode)
    pure (located modifiers (some (generalRegister 32 (registers % 8))) index scale value constant)

/-- Reads a 32-bit address, by the mode and number of a ModRM byte. -/
def readDoubleAddress (modifiers : Modifiers) (mode number : Nat) : Reader Memory :=
  if number = 4 then readScaled modifiers mode
  else if mode = 0 ∧ number = 5 then do
    let (value, constant) ← readDisplacement modifiers 4
    pure (located modifiers none none 1 value constant)
  else do
    let (value, constant) ← readDisplacement modifiers (doubleLength mode)
    pure (located modifiers (some (generalRegister 32 number)) none 1 value constant)

/-- Reads the address of a memory operand, by the mode and number of a ModRM byte. -/
def read (modifiers : Modifiers) (mode number : Nat) : Reader Memory :=
  if modifiers.wideAddress then readDoubleAddress modifiers mode number
  else readWordAddress modifiers mode number

/-- Reads an address that stands alone. -/
def readAbsolute (modifiers : Modifiers) : Reader Memory := do
  let (value, constant) ← readDisplacement modifiers (modifiers.addressBits / 8)
  pure (located modifiers none none 1 value constant)

end Memory

end RealMode.X86
