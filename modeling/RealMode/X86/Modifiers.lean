import RealMode.X86.Reader

/-! The bytes before an opcode that modify an instruction. -/

set_option autoImplicit false

namespace RealMode.X86

/-- The condition under which a string instruction is repeated. -/
inductive Repetition where
  | whileEqual
  | whileNotEqual
  deriving DecidableEq, Repr

structure Modifiers where
  /-- The segment register that replaces the usual one. -/
  segment : Option String
  /-- Operands of 32 instead of 16 bits. -/
  wideOperand : Bool
  /-- Addresses of 32 instead of 16 bits. -/
  wideAddress : Bool
  lock : Bool
  repetition : Option Repetition
  deriving DecidableEq, Repr

namespace Modifiers

def none : Modifiers := ⟨.none, false, false, false, .none⟩

/-- The modifiers with one more byte, if that byte is one. Of two that exclude each other the
later one counts. -/
def absorb? (modifiers : Modifiers) (byte : UInt8) : Option Modifiers :=
  match byte.toNat with
  | 0x26 => some { modifiers with segment := some "es" }
  | 0x2E => some { modifiers with segment := some "cs" }
  | 0x36 => some { modifiers with segment := some "ss" }
  | 0x3E => some { modifiers with segment := some "ds" }
  | 0x64 => some { modifiers with segment := some "fs" }
  | 0x65 => some { modifiers with segment := some "gs" }
  | 0x66 => some { modifiers with wideOperand := true }
  | 0x67 => some { modifiers with wideAddress := true }
  | 0xF0 => some { modifiers with lock := true }
  | 0xF2 => some { modifiers with repetition := some .whileNotEqual }
  | 0xF3 => some { modifiers with repetition := some .whileEqual }
  | _ => .none

/-- Reads modifiers and the opcode behind them. -/
def readFrom (modifiers : Modifiers) (position : Nat) :
    List UInt8 → Except Failure ((Modifiers × UInt8) × Cursor)
  | [] => .error .exhausted
  | byte :: rest =>
      match modifiers.absorb? byte with
      | some more => readFrom more (position + 1) rest
      | .none => .ok ((modifiers, byte), ⟨position + 1, rest⟩)

def read : Reader (Modifiers × UInt8) := fun cursor => readFrom .none cursor.position cursor.rest

/-- The number of bits of an operand. -/
def operandBits (modifiers : Modifiers) : Nat := if modifiers.wideOperand then 32 else 16

/-- The number of bits of an address. -/
def addressBits (modifiers : Modifiers) : Nat := if modifiers.wideAddress then 32 else 16

end Modifiers

end RealMode.X86
