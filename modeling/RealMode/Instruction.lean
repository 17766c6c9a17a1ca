import RealMode.Fixup

/-! Decoded instructions: operands with the fix-ups of their constants, and the way control
leaves an instruction. -/

set_option autoImplicit false

namespace RealMode

/-- How control leaves an instruction. -/
inductive Flow where
  | next
  | call (far : Bool)
  | jump (far : Bool)
  | conditionalJump
  | ret
  | halt
  | interrupt
  deriving DecidableEq, Repr

namespace Operand

/-- The part of an operand that a fix-up patches. -/
inductive Field where
  | whole
  | offset
  | selector
  deriving DecidableEq, Repr

inductive Kind where
  | relative (target : UInt16)
  | pointer (selector offset : UInt16)
  | memory (segment : String) (base index : Option String) (displacement : UInt16)
  | register (name : String)
  | immediate (value : UInt64) (size : UInt8)
  | other
  deriving DecidableEq, Repr

/-- A fix-up attached to a part of an operand. -/
structure Patch where
  field : Field
  fixup : Fixup
  deriving DecidableEq, Repr

end Operand

structure Operand where
  kind : Operand.Kind
  patch : Option Operand.Patch
  deriving DecidableEq, Repr

namespace Operand

def plain (kind : Kind) : Operand := ⟨kind, none⟩

def withPatch (operand : Operand) (field : Field) (fixup : Fixup) : Operand :=
  { operand with patch := some ⟨field, fixup⟩ }

/-- A zero displacement is written only where there is no register. -/
def memoryText (segment : String) (base index : Option String) (displacement : UInt16) : String :=
  let registers := base.toList ++ index.toList
  let parts :=
    if displacement = 0 ∧ registers ≠ [] then registers
    else registers ++ [Numeral.hex 4 displacement.toNat]
  segment ++ ":[" ++ String.intercalate "+" parts ++ "]"

def text (operand : Operand) : String :=
  match operand.kind with
  | .relative target => Numeral.hex 4 target.toNat
  | .pointer selector offset =>
      Numeral.hex 4 selector.toNat ++ ":" ++ Numeral.hex 4 offset.toNat
  | .memory segment base index displacement => memoryText segment base index displacement
  | .register name => name
  | .immediate value _ => Numeral.hex 1 value.toNat
  | .other => "?"

end Operand

structure Instruction where
  offset : Nat
  ip : UInt16
  length : Nat
  mnemonic : String
  body : String
  flow : Flow
  operands : List Operand
  deriving DecidableEq, Repr

namespace Instruction

/-- The offset just behind the instruction. -/
def stop (instruction : Instruction) : Nat := instruction.offset + instruction.length

/-- The instruction pointer behind the instruction, if it does not pass the end of the segment. -/
def nextIp? (instruction : Instruction) : Option UInt16 :=
  let next := instruction.ip.toNat + instruction.length
  if next < 65536 then some (UInt16.ofNat next) else none

def text (instruction : Instruction) : String :=
  Numeral.hex 4 instruction.ip.toNat ++ ": " ++ instruction.body

end Instruction

end RealMode
