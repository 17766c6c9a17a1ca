import RealMode.Image
import RealMode.Instruction

/-! Decoders as analysis sees them, and decoders that answer from a script. -/

set_option autoImplicit false

namespace RealMode

inductive DecodeError where
  | insufficientBytes (offset : Nat)
  | invalidInstruction (offset : Nat)
  /-- A fix-up that does not coincide with a constant of the instruction. -/
  | brokenFixup (offset fixupStart : Nat)
  deriving DecidableEq, Repr

namespace DecodeError

def offset : DecodeError → Nat
  | .insufficientBytes offset | .invalidInstruction offset | .brokenFixup offset _ => offset

def message : DecodeError → String
  | .insufficientBytes offset => "Insufficient bytes at " ++ Numeral.hexLiteral 1 offset
  | .invalidInstruction offset => "Invalid instruction at " ++ Numeral.hexLiteral 1 offset
  | .brokenFixup offset fixupStart =>
      "Fix-up at " ++ Numeral.hexLiteral 1 fixupStart ++
        " does not match an operand of the instruction at " ++ Numeral.hexLiteral 1 offset

end DecodeError

/-- Decodes the instruction at an offset of an image, for a value of the instruction pointer. -/
abbrev Decoder := Image → Nat → UInt16 → Except DecodeError Instruction

namespace Script

inductive Answer where
  | instruction (length : Nat) (body : String) (flow : Flow) (operands : List Operand)
  | failure (error : DecodeError)
  deriving DecidableEq, Repr

/-- The answer for one offset of an image. -/
structure Row where
  image : Nat
  offset : Nat
  answer : Answer
  deriving DecidableEq, Repr

/-- The decoder that gives the answer of the first row for an offset. Elsewhere there is no
instruction. -/
def decoder (rows : List Row) : Decoder := fun image offset ip =>
  match rows.find? fun row => row.image = image.id ∧ row.offset = offset with
  | none => .error (.invalidInstruction offset)
  | some row =>
      match row.answer with
      | .instruction length body flow operands =>
          .ok ⟨offset, ip, length, body, body, flow, operands⟩
      | .failure error => .error error

end Script

end RealMode
