import RealMode.X86.Encoding

/-! Instructions as they are encoded, before they are placed at an instruction pointer. -/

set_option autoImplicit false

namespace RealMode.X86

/-- The value of an operand. -/
inductive Value where
  /-- A register, which the text may leave out. -/
  | register (name : String) (isHidden : Bool)
  /-- Memory, with a keyword that the text writes before it. -/
  | memory (memory : Memory) (keyword : String)
  /-- The byte of a table that an index register selects. -/
  | tableEntry (table : Memory)
  /-- A constant of a number of bits, extended to 64 bits. -/
  | immediate (value bits : Nat) (constant : Option Constant)
  /-- A displacement from the end of the instruction. -/
  | branch (displacement : Nat) (isShort : Bool) (constant : Constant)
  | farPointer (offset selector : Constant)
  | stringSource
  | stringDestination
  deriving DecidableEq, Repr

/-- An instruction with the number of its bytes. -/
structure Machine where
  modifiers : Modifiers
  form : Form
  values : List Value
  length : Nat
  deriving DecidableEq, Repr

namespace Machine

/-- The parts of a ModRM byte, with the address of memory if it does not name a register. -/
structure ModRM where
  middle : Nat
  number : Nat
  memory : Option Memory
  deriving DecidableEq, Repr

def ModRM.absent : ModRM := ⟨0, 0, none⟩

/-- Reads the rest of an operand of a ModRM byte. -/
def readModRM (modifiers : Modifiers) (byte : UInt8) : Reader ModRM :=
  let mode := byte.toNat / 64
  let middle := byte.toNat / 8 % 8
  let number := byte.toNat % 8
  if mode = 3 then pure ⟨middle, number, none⟩
  else do
    let memory ← Memory.read modifiers mode number
    pure ⟨middle, number, some memory⟩

/-- The byte of the table at the base register that the accumulator selects. -/
def tableMemory (modifiers : Modifiers) : Memory :=
  .located modifiers (some (generalRegister modifiers.addressBits 3)) (some "al") 1 0 none

/-- Reads the value of an operand. -/
def readValue (modifiers : Modifiers) (modrm : ModRM) : Argument → Reader Value
  | .registerOrMemory size showsSize =>
      match modrm.memory with
      | some memory => pure (.memory memory (if showsSize then size.keyword modifiers else ""))
      | none => pure (.register (generalRegister (size.bits modifiers) modrm.number) false)
  | .memory keyword =>
      match modrm.memory with
      | some memory => pure (.memory memory keyword)
      | none => Reader.fail
  | .address =>
      match modrm.memory with
      | some memory => pure (.memory { memory with showsSegment := false } "")
      | none => Reader.fail
  | .middle size => pure (.register (generalRegister (size.bits modifiers) modrm.middle) false)
  | .middleSegment loadable =>
      match segmentRegisters[modrm.middle]? with
      | some name => if loadable ∧ name = "cs" then Reader.fail else pure (.register name false)
      | none => Reader.fail
  | .numbered size number => pure (.register (generalRegister (size.bits modifiers) number) false)
  | .fixed name => pure (.register name false)
  | .hidden name => pure (.register name true)
  | .immediate size => do
      let constant ← Constant.read (size.bits modifiers / 8)
      pure (.immediate constant.value (size.bits modifiers) (some constant))
  | .extendedByte => do
      let constant ← Constant.read 1
      pure (.immediate (constant.extended 64) modifiers.operandBits (some constant))
  | .one => pure (.immediate 1 8 none)
  | .shortBranch isNamed => do
      let constant ← Constant.read 1
      pure (.branch (constant.extended 32) isNamed constant)
  | .nearBranch => do
      let constant ← Constant.read (modifiers.operandBits / 8)
      pure (.branch (constant.extended 32) false constant)
  | .farPointer => do
      let offset ← Constant.read (modifiers.operandBits / 8)
      let selector ← Constant.read 2
      pure (.farPointer offset selector)
  | .absolute => do
      let memory ← Memory.readAbsolute modifiers
      pure (.memory memory "")
  | .tableEntry => pure (.tableEntry (tableMemory modifiers))
  | .stringSource => pure .stringSource
  | .stringDestination => pure .stringDestination

def readValues (modifiers : Modifiers) (modrm : ModRM) : List Argument → Reader (List Value)
  | [] => pure []
  | argument :: rest => do
      let value ← readValue modifiers modrm argument
      let values ← readValues modifiers modrm rest
      pure (value :: values)

/-- Whether an instruction with these operands may have a lock. -/
def mayLock (form : Form) (values : List Value) : Bool :=
  match form.isLockable, values.head? with
  | true, some (.memory _ _) => true
  | _, _ => false

/-- Reads the operands of a form, and with them the rest of the instruction. -/
def readForm (modifiers : Modifiers) (modrm : ModRM) (form : Form) : Reader Machine := do
  let values ← readValues modifiers modrm form.arguments
  if modifiers.lock && !mayLock form values then Reader.fail
  let cursor ← get
  pure ⟨modifiers, form, values, cursor.position⟩

/-- Reads what stands behind an opcode. -/
def readEncoding (modifiers : Modifiers) : Encoding → Reader Machine
  | .plain form => readForm modifiers .absent form
  | .modrm form => do
      let byte ← Reader.byte
      let modrm ← readModRM modifiers byte
      readForm modifiers modrm form
  | .group forms => do
      let byte ← Reader.byte
      match forms (byte.toNat / 8 % 8) with
      | none => Reader.fail
      | some form =>
          let modrm ← readModRM modifiers byte
          readForm modifiers modrm form
  | .escape | .unknown => Reader.fail

/-- Reads an instruction. -/
def read : Reader Machine := do
  let (modifiers, opcode) ← Modifiers.read
  match Encoding.ofOpcode modifiers opcode.toNat with
  | .escape => do
      let second ← Reader.byte
      readEncoding modifiers (Encoding.ofEscaped second.toNat)
  | encoding => readEncoding modifiers encoding

/-- The target of a branch from an instruction at `ip`. -/
def branchTarget (machine : Machine) (ip : UInt16) (displacement : Nat) : Nat :=
  (ip.toNat + machine.length + displacement) % (1 <<< machine.modifiers.operandBits)

/-- An operand as an instruction at `ip` has it. -/
def operandKind (machine : Machine) (ip : UInt16) : Value → Operand.Kind
  | .register name _ => .register name
  | .memory memory _ | .tableEntry memory =>
      .memory memory.segment memory.base memory.index (UInt16.ofNat memory.displacement)
  | .immediate value bits _ => .immediate (UInt64.ofNat value) (UInt8.ofNat (bits / 8))
  | .branch displacement _ _ => .relative (UInt16.ofNat (machine.branchTarget ip displacement))
  | .farPointer offset selector =>
      .pointer (UInt16.ofNat selector.value) (UInt16.ofNat offset.value)
  | .stringSource | .stringDestination => .other

def operands (machine : Machine) (ip : UInt16) : List Operand :=
  machine.values.map fun value => .plain (machine.operandKind ip value)

end Machine

end RealMode.X86
