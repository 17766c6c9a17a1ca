import RealMode.Decoder
import RealMode.X86.Text

/-! The decoder for 16-bit code.

A decoded instruction depends on the bytes at an offset, the fix-ups that meet it, and the
instruction pointer. Every such fix-up has to cover exactly one constant of the instruction. -/

set_option autoImplicit false

namespace RealMode.X86

/-- A constant of an instruction that a fix-up can patch. -/
structure PatchSite where
  start : Nat
  length : Nat
  /-- The number of the operand. -/
  operand : Nat
  field : Operand.Field
  deriving DecidableEq, Repr

/-- The constants of an operand. -/
def Value.sites (operand : Nat) : Value → List PatchSite
  | .memory location _ =>
      match location.constant with
      | some constant => [⟨constant.start, constant.length, operand, .whole⟩]
      | none => []
  | .immediate _ _ (some constant) | .branch _ _ constant =>
      [⟨constant.start, constant.length, operand, .whole⟩]
  | .farPointer offset selector =>
      [⟨offset.start, offset.length + selector.length, operand, .whole⟩,
        ⟨offset.start, offset.length, operand, .offset⟩,
        ⟨selector.start, selector.length, operand, .selector⟩]
  | .immediate _ _ none | .register _ _ | .tableEntry _ | .stringSource | .stringDestination => []

namespace Machine

/-- The constants of the operands from number `operand` on. -/
def sitesFrom (operand : Nat) : List Value → List PatchSite
  | [] => []
  | value :: rest => value.sites operand ++ sitesFrom (operand + 1) rest

def sites (machine : Machine) : List PatchSite := sitesFrom 0 machine.values

end Machine

/-- The operand with a fix-up. A fix-up of a selector does not replace another one. -/
def patched (operand : Operand) (field : Operand.Field) (fixup : Fixup) : Operand :=
  if operand.patch.isSome ∧ field = .selector then operand else operand.withPatch field fixup

/-- Attaches fix-ups to the operands of an instruction at `offset`. -/
def attach (offset : Nat) (sites : List PatchSite) :
    List Operand → List Fixup → Except DecodeError (List Operand)
  | operands, [] => .ok operands
  | operands, fixup :: rest =>
      match sites.find? fun site =>
          offset + site.start = fixup.start ∧ site.length = fixup.length with
      | none => .error (.brokenFixup offset fixup.start)
      | some site =>
          attach offset sites (operands.modify site.operand (patched · site.field fixup)) rest

/-- The largest number of bytes of an instruction. -/
def longest : Nat := 15

/-- The bytes at an offset that an instruction can have. -/
def window (image : Image) (offset : Nat) : List UInt8 :=
  (image.bytes.extract offset (offset + longest)).toList

/-- Reads the instruction at an offset. If the bytes end before the instruction does, there are
too few of them, or it is too long. -/
def machineAt (image : Image) (offset : Nat) : Except DecodeError Machine :=
  let bytes := window image offset
  match Machine.read ⟨0, bytes⟩ with
  | .ok (machine, _) => .ok machine
  | .error .invalid => .error (.invalidInstruction offset)
  | .error .exhausted =>
      if bytes.length = longest then .error (.invalidInstruction offset)
      else .error (.insufficientBytes offset)

def decoder : Decoder := fun image offset ip => do
  let machine ← machineAt image offset
  let fixups := image.fixups.overlapping offset (offset + machine.length)
  let operands ← attach offset machine.sites (machine.operands ip) fixups
  .ok ⟨offset, ip, machine.length, machine.form.mnemonic, machine.text ip, machine.form.flow,
    operands⟩

end RealMode.X86
