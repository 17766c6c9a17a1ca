/-! Reading the bytes of an instruction. -/

set_option autoImplicit false

namespace RealMode.X86

/-- The bytes still to be read, and how many have been read. -/
structure Cursor where
  position : Nat
  rest : List UInt8
  deriving DecidableEq, Repr

inductive Failure where
  /-- The bytes ran out. -/
  | exhausted
  | invalid
  deriving DecidableEq, Repr

abbrev Reader := StateT Cursor (Except Failure)

namespace Reader

def byte : Reader UInt8 := fun cursor =>
  match cursor.rest with
  | [] => .error .exhausted
  | byte :: rest => .ok (byte, ⟨cursor.position + 1, rest⟩)

def fail {α : Type} : Reader α := fun _ => .error .invalid

/-- Reads a number of bytes, the low ones first. -/
def littleEndian : (length : Nat) → Reader Nat
  | 0 => pure 0
  | length + 1 => do
      let low ← byte
      let high ← littleEndian length
      pure (low.toNat + 256 * high)

end Reader

/-- A number encoded in an instruction, with its place behind the start of the instruction. -/
structure Constant where
  value : Nat
  start : Nat
  length : Nat
  deriving DecidableEq, Repr

namespace Constant

def read (length : Nat) : Reader Constant := do
  let cursor ← get
  let value ← Reader.littleEndian length
  pure ⟨value, cursor.position, length⟩

/-- The value as a signed number, modulo a number of bits. -/
def extended (constant : Constant) (bits : Nat) : Nat :=
  if constant.value < 1 <<< (8 * constant.length - 1) then constant.value
  else constant.value + (1 <<< bits) - (1 <<< (8 * constant.length))

end Constant

end RealMode.X86
