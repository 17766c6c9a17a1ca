import RealMode.Text.Numeral
import RealMode.X86.Machine

/-! The text of an instruction. -/

set_option autoImplicit false

namespace RealMode.X86

/-- A hexadecimal number of at least `width` digits. A single decimal digit stands alone. -/
def number (width value : Nat) : String :=
  if value < 10 then Numeral.decimal value
  else
    let digits := Numeral.hex width value
    (if digits.toList.head?.any Char.isAlpha then "0" else "") ++ digits ++ "h"

namespace Memory

/-- The displacement behind registers, as a signed number that is left out if it is zero. -/
def displacementText (memory : Memory) : String :=
  if memory.displacement = 0 then ""
  else if memory.displacement < 1 <<< (memory.addressBits - 1) then
    "+" ++ number 1 memory.displacement
  else "-" ++ number 1 ((1 <<< memory.addressBits) - memory.displacement)

def indexText (memory : Memory) : Option String :=
  memory.index.map fun name =>
    if memory.scale = 1 then name else name ++ "*" ++ Numeral.decimal memory.scale

/-- The segment that the text writes before a memory operand. -/
def segmentText (memory : Memory) : String :=
  if memory.showsSegment then memory.segment ++ ":" else ""

def text (memory : Memory) : String :=
  let registers := memory.base.toList ++ memory.indexText.toList
  let address :=
    if registers.isEmpty then number 1 memory.displacement
    else String.intercalate "+" registers ++ memory.displacementText
  memory.segmentText ++ "[" ++ address ++ "]"

end Memory

namespace Machine

/-- The segment register that the text of a string instruction writes. A segment that is the
usual one is not written, and then neither is the one of the destination. -/
def stringSegment? (machine : Machine) : Option String :=
  machine.modifiers.segment.filter (· ≠ "ds")

/-- The memory at an index register of a string instruction. -/
def stringText (machine : Machine) (segment : Option String) (register : Nat) : String :=
  (segment.map (· ++ ":")).getD "" ++
    "[" ++ generalRegister machine.modifiers.addressBits register ++ "]"

/-- The text of an operand, if it is written. -/
def valueText? (machine : Machine) (ip : UInt16) : Value → Option String
  | .register name isHidden => if isHidden then none else some name
  | .memory memory keyword => some (keyword ++ memory.text)
  | .tableEntry table => some (Memory.text { table with index := none })
  | .immediate value bits _ => some (number 1 (value % (1 <<< bits)))
  | .branch displacement isShort _ =>
      some ((if isShort then "short " else "") ++
        number (machine.modifiers.operandBits / 4) (machine.branchTarget ip displacement))
  | .farPointer offset selector =>
      some (number (2 * offset.length) offset.value ++ "," ++
        number (2 * selector.length) selector.value)
  | .stringSource => some (machine.stringText machine.stringSegment? 6)
  | .stringDestination =>
      some (machine.stringText (machine.stringSegment?.map fun _ => "es") 7)

/-- The operands that are written. Of three, the second is left out if it repeats the first. -/
def writtenValues (machine : Machine) : List Value :=
  match machine.values with
  | [first, second, third] => if first = second then [first, third] else [first, second, third]
  | values => values

/-- What is written before the name of an instruction. -/
def modifierText (machine : Machine) : String :=
  let lock := if machine.modifiers.lock then "lock " else ""
  let width := if machine.form.showsWidth && machine.modifiers.wideOperand then "data32 " else ""
  let repetition :=
    match machine.form.repetitionName, machine.modifiers.repetition with
    | some name, some .whileEqual => name
    | some _, some .whileNotEqual => "repne "
    | _, _ => ""
  lock ++ width ++ repetition

def text (machine : Machine) (ip : UInt16) : String :=
  let name := machine.modifierText ++ machine.form.spelling.getD machine.form.mnemonic
  match machine.writtenValues.filterMap (machine.valueText? ip) with
  | [] => name
  | operands => name ++ " " ++ String.intercalate "," operands

end Machine

end RealMode.X86
