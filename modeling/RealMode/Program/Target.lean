import RealMode.Instruction
import RealMode.Program.Resolve

/-! Targets of fix-ups and of branch instructions. -/

set_option autoImplicit false

namespace RealMode.Program

/-- The number of addresses that are looked at on the way through externals. -/
def chainLimit : Nat := 16

/-- Replaces externals by their definitions, looking at no more than `rounds` addresses. -/
def settle? (program : Program) : (rounds : Nat) → Address → Option Address
  | 0, _ => none
  | rounds + 1, address =>
      match address.referent with
      | .external id => do
          let symbol ← program.definition? id
          program.settle? rounds (symbol.address.wrappingAdd address.offset)
      | _ => some address

/-- The address of a fix-up's target, relative to a referent that is no external. -/
def targetAddress? (program : Program) (target : Fixup.Target) : Option Address := do
  let _ ← program.base? target.referent
  program.settle? chainLimit ⟨target.referent, target.displacement⟩

/-- The same place as `address` counted from the base of `frame`, if it lies within 64K behind
it. -/
def reframe? (program : Program) (address : Address) (frame : Referent) : Option Address := do
  let place ← program.resolve address
  let base ← program.base? frame
  if place.image = base.image ∧ base.offset ≤ place.offset ∧ place.offset - base.offset < 65536 then
    some ⟨frame, UInt16.ofNat (place.offset - base.offset)⟩
  else
    none

/-- The frame that a fix-up asks its target to be expressed in. -/
def requestedFrame? (fixup : Fixup) : Option Referent :=
  match fixup.mode, fixup.frame with
  | .segmentRelative, some (.referent frame) => some frame
  | _, _ => none

/-- The address that a fix-up patches in, expressed in its frame where that is possible. -/
def fixupAddress? (program : Program) (fixup : Fixup) : Option Address := do
  let target ← program.targetAddress? fixup.target
  match requestedFrame? fixup with
  | none => some target
  | some frame =>
      if frame = target.referent then some target
      else some ((program.reframe? target frame).getD target)

/-- Where a branch at `source` goes, if its first operand says so. A fix-up takes precedence
over the constant that it patches. -/
def branchTarget? (program : Program) (instruction : Instruction) (source : Address) :
    Option Address := do
  let operand ← instruction.operands.head?
  match operand.kind, operand.patch with
  | .relative _, some patch => program.fixupAddress? patch.fixup
  | .relative target, none => some ⟨source.referent, target⟩
  | .pointer _ offset, some patch =>
      match patch.field with
      | .whole | .offset => program.fixupAddress? patch.fixup
      | .selector => do
          let _ ← program.base? patch.fixup.target.referent
          some ⟨patch.fixup.target.referent, offset⟩
  | .pointer selector offset, none => some ⟨.frame selector, offset⟩
  | _, _ => none

end RealMode.Program
