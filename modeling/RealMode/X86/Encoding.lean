import RealMode.Instruction
import RealMode.X86.Memory

/-! The instructions of the 8086 and its successors up to a few of the 80386, by opcode. -/

set_option autoImplicit false

namespace RealMode.X86

/-- How an operand is encoded. -/
inductive Argument where
  /-- A register or memory by the ModRM byte, with the size written before memory or not. -/
  | registerOrMemory (size : Size) (showsSize : Bool)
  /-- Memory by the ModRM byte, with a keyword written before it. -/
  | memory (keyword : String)
  /-- Memory by the ModRM byte of which only the address counts. -/
  | address
  /-- A register by the middle bits of the ModRM byte. -/
  | middle (size : Size)
  /-- A segment register by the middle bits of the ModRM byte. -/
  | middleSegment (loadable : Bool)
  /-- A register by number. -/
  | numbered (size : Size) (number : Nat)
  | fixed (name : String)
  /-- A register that is not written in the text. -/
  | hidden (name : String)
  /-- A constant of the size of an operand. -/
  | immediate (size : Size)
  /-- A signed byte that is extended to the size of an operand. -/
  | extendedByte
  /-- The number one, which is not encoded. -/
  | one
  /-- A displacement of one byte from the end of the instruction, named short or not. -/
  | shortBranch (isNamed : Bool)
  | nearBranch
  | farPointer
  | absolute
  /-- The byte of a table that the accumulator selects. -/
  | tableEntry
  /-- The byte at the source index of a string instruction. -/
  | stringSource
  /-- The byte at the destination index of a string instruction. -/
  | stringDestination
  deriving DecidableEq, Repr

/-- An instruction up to the values of its operands. -/
structure Form where
  mnemonic : String
  arguments : List Argument := []
  flow : Flow := .next
  /-- The name in the text, where it is not the mnemonic. -/
  spelling : Option String := none
  /-- Whether the instruction can be locked if its first operand is memory. -/
  isLockable : Bool := false
  /-- Whether the text tells that a modifier made the operand wide. -/
  showsWidth : Bool := false
  /-- How the text names a repetition while equal, if the instruction can be repeated. -/
  repetitionName : Option String := none
  deriving DecidableEq, Repr

/-- What an opcode stands for. -/
inductive Encoding where
  | plain (form : Form)
  /-- A form whose operands are in a ModRM byte. -/
  | modrm (form : Form)
  /-- Forms by the middle bits of a ModRM byte. -/
  | group (form : Nat → Option Form)
  /-- The opcode has a second byte. -/
  | escape
  | unknown

namespace Encoding

open Argument

/-- The operand of size `size` in a ModRM byte, whose size is not written. -/
def rm (size : Size) : Argument := .registerOrMemory size false

/-- The operand of size `size` in a ModRM byte, whose size is written before memory. -/
def rmShown (size : Size) : Argument := .registerOrMemory size true

/-- A byte for even opcodes, an operand for odd ones. -/
def sizeOf (opcode : Nat) : Size := if opcode % 2 = 0 then .byte else .operand

def accumulator (size : Size) : Argument := .numbered size 0

def simple (mnemonic : String) : Encoding := .plain { mnemonic }

def arithmeticNames : List String := ["add", "or", "adc", "sbb", "and", "sub", "xor", "cmp"]

def arithmeticName (number : Nat) : String := (arithmeticNames[number]?).getD ""

def isLockableArithmetic (number : Nat) : Bool := number ≠ 7

/-- The arithmetic instructions with two operands. -/
def arithmetic (opcode : Nat) : Encoding :=
  let mnemonic := arithmeticName (opcode / 8)
  let size := sizeOf opcode
  match opcode % 8 with
  | 0 | 1 =>
      .modrm {
        mnemonic := mnemonic
        arguments := [rm size, .middle size]
        isLockable := isLockableArithmetic (opcode / 8) }
  | 2 | 3 => .modrm { mnemonic, arguments := [.middle size, rm size] }
  | _ => .plain { mnemonic, arguments := [accumulator size, .immediate size] }

/-- The arithmetic instructions with a constant. -/
def arithmeticGroup (size : Size) (constant : Argument) : Encoding :=
  .group fun number => some {
    mnemonic := arithmeticName number
    arguments := [rmShown size, constant]
    isLockable := isLockableArithmetic number }

def shiftNames : List String := ["rol", "ror", "rcl", "rcr", "shl", "shr", "sal", "sar"]

/-- The shifts and rotations. Both names of the shift to the left are written alike. -/
def shiftGroup (size : Size) (count : Argument) : Encoding :=
  .group fun number => some {
    mnemonic := (shiftNames[number]?).getD ""
    arguments := [rmShown size, count]
    spelling := if number = 6 then some "shl" else none }

def conditionNames : List String :=
  ["o", "no", "b", "ae", "e", "ne", "be", "a", "s", "ns", "p", "np", "l", "ge", "le", "g"]

def conditionName (number : Nat) : String := (conditionNames[number]?).getD ""

def conditionalJump (number : Nat) (branch : Argument) : Encoding :=
  .plain {
    mnemonic := "j" ++ conditionName number
    arguments := [branch]
    flow := .conditionalJump
    showsWidth := true }

def loopNames (modifiers : Modifiers) : List String :=
  ["loopne", "loope", "loop", if modifiers.wideAddress then "jecxz" else "jcxz"]

/-- The letter that names the size of a string instruction. -/
def sizeLetter (modifiers : Modifiers) (opcode : Nat) : String :=
  if opcode % 2 = 0 then "b" else if modifiers.wideOperand then "d" else "w"

def hiddenAccumulator (modifiers : Modifiers) (opcode : Nat) : Argument :=
  .hidden (generalRegister ((sizeOf opcode).bits modifiers) 0)

/-- The string instructions. -/
def string (modifiers : Modifiers) (opcode : Nat) (name : String) (arguments : List Argument)
    (repetitionName : String) : Encoding :=
  .plain {
    mnemonic := name ++ sizeLetter modifiers opcode
    arguments := arguments
    repetitionName := some repetitionName }

/-- The instructions on one operand, and the test of two. -/
def unaryGroup (size : Size) : Encoding :=
  .group fun number =>
    match number with
    | 0 | 1 => some { mnemonic := "test", arguments := [rmShown size, .immediate size] }
    | 2 => some { mnemonic := "not", arguments := [rmShown size], isLockable := true }
    | 3 => some { mnemonic := "neg", arguments := [rmShown size], isLockable := true }
    | 4 => some { mnemonic := "mul", arguments := [rmShown size] }
    | 5 => some { mnemonic := "imul", arguments := [rmShown size] }
    | 6 => some { mnemonic := "div", arguments := [rmShown size] }
    | 7 => some { mnemonic := "idiv", arguments := [rmShown size] }
    | _ => none

/-- Increments, decrements, and what goes through an operand of a ModRM byte. -/
def indirectGroup (modifiers : Modifiers) (size : Size) : Encoding :=
  let farKeyword := if modifiers.wideOperand then "fword ptr " else "dword ptr "
  .group fun number =>
    match number with
    | 0 => some { mnemonic := "inc", arguments := [rmShown size], isLockable := true }
    | 1 => some { mnemonic := "dec", arguments := [rmShown size], isLockable := true }
    | _ =>
        if size = .byte then none
        else
          match number with
          | 2 => some { mnemonic := "call", arguments := [rmShown size], flow := .call false }
          | 3 =>
              some {
                mnemonic := "call"
                arguments := [.memory farKeyword]
                flow := .call true
                spelling := some "call far" }
          | 4 => some { mnemonic := "jmp", arguments := [rmShown size], flow := .jump false }
          | 5 =>
              some {
                mnemonic := "jmp"
                arguments := [.memory farKeyword]
                flow := .jump true
                spelling := some "jmp far" }
          | 6 => some { mnemonic := "push", arguments := [rmShown size] }
          | _ => none

/-- A group of which only the first form exists. -/
def single (form : Form) : Encoding := .group fun number => if number = 0 then some form else none

/-- A name that depends on the size of operands. -/
def byWidth (modifiers : Modifiers) (narrow wide : String) : String :=
  if modifiers.wideOperand then wide else narrow

/-- The opcodes that stand for themselves or for a small family. -/
def individual (modifiers : Modifiers) (opcode : Nat) : Encoding :=
  let size := sizeOf opcode
  match opcode with
  | 0x0F => .escape
  | 0x06 | 0x0E | 0x16 | 0x1E =>
      .plain { mnemonic := "push", arguments := [.fixed ((segmentRegisters[opcode / 8]?).getD "")] }
  | 0x07 | 0x17 | 0x1F =>
      .plain { mnemonic := "pop", arguments := [.fixed ((segmentRegisters[opcode / 8]?).getD "")] }
  | 0x27 => simple "daa"
  | 0x2F => simple "das"
  | 0x37 => simple "aaa"
  | 0x3F => simple "aas"
  | 0x60 => simple (byWidth modifiers "pusha" "pushad")
  | 0x61 => simple (byWidth modifiers "popa" "popad")
  | 0x62 => .modrm { mnemonic := "bound", arguments := [.middle .operand, .memory "dword ptr "] }
  | 0x63 => .modrm { mnemonic := "arpl", arguments := [rm .operand, .middle .operand] }
  | 0x68 => .plain { mnemonic := "push", arguments := [.immediate .operand], showsWidth := true }
  | 0x69 =>
      .modrm {
        mnemonic := "imul"
        arguments := [.middle .operand, rm .operand, .immediate .operand] }
  | 0x6A => .plain { mnemonic := "push", arguments := [.extendedByte], showsWidth := true }
  | 0x6B =>
      .modrm { mnemonic := "imul", arguments := [.middle .operand, rm .operand, .extendedByte] }
  | 0x6C | 0x6D => string modifiers opcode "ins" [.stringDestination, .fixed "dx"] "rep "
  | 0x6E | 0x6F => string modifiers opcode "outs" [.fixed "dx", .stringSource] "rep "
  | 0x80 | 0x82 => arithmeticGroup .byte (.immediate .byte)
  | 0x81 => arithmeticGroup .operand (.immediate .operand)
  | 0x83 => arithmeticGroup .operand .extendedByte
  | 0x84 | 0x85 => .modrm { mnemonic := "test", arguments := [rm size, .middle size] }
  | 0x86 | 0x87 =>
      .modrm { mnemonic := "xchg", arguments := [rm size, .middle size], isLockable := true }
  | 0x88 | 0x89 => .modrm { mnemonic := "mov", arguments := [rm size, .middle size] }
  | 0x8A | 0x8B => .modrm { mnemonic := "mov", arguments := [.middle size, rm size] }
  | 0x8C => .modrm { mnemonic := "mov", arguments := [rm .operand, .middleSegment false] }
  | 0x8D => .modrm { mnemonic := "lea", arguments := [.middle .operand, .address] }
  | 0x8E => .modrm { mnemonic := "mov", arguments := [.middleSegment true, rm .operand] }
  | 0x8F => single { mnemonic := "pop", arguments := [rmShown .operand] }
  | 0x90 => simple (if modifiers.repetition = some .whileEqual then "pause" else "nop")
  | 0x98 => simple (byWidth modifiers "cbw" "cwde")
  | 0x99 => simple (byWidth modifiers "cwd" "cdq")
  | 0x9A =>
      .plain {
        mnemonic := "call"
        arguments := [.farPointer]
        flow := .call true
        spelling := some "call far"
        showsWidth := true }
  | 0x9B => .plain { mnemonic := "wait", spelling := some "fwait" }
  | 0x9C => simple (byWidth modifiers "pushf" "pushfd")
  | 0x9D => simple (byWidth modifiers "popf" "popfd")
  | 0x9E => simple "sahf"
  | 0x9F => simple "lahf"
  | 0xA0 | 0xA1 => .plain { mnemonic := "mov", arguments := [accumulator size, .absolute] }
  | 0xA2 | 0xA3 => .plain { mnemonic := "mov", arguments := [.absolute, accumulator size] }
  | 0xA4 | 0xA5 => string modifiers opcode "movs" [.stringDestination, .stringSource] "rep "
  | 0xA6 | 0xA7 => string modifiers opcode "cmps" [.stringSource, .stringDestination] "repe "
  | 0xA8 | 0xA9 =>
      .plain { mnemonic := "test", arguments := [accumulator size, .immediate size] }
  | 0xAA | 0xAB =>
      string modifiers opcode "stos" [.stringDestination, hiddenAccumulator modifiers opcode] "rep "
  | 0xAC | 0xAD =>
      string modifiers opcode "lods" [hiddenAccumulator modifiers opcode, .stringSource] "rep "
  | 0xAE | 0xAF =>
      string modifiers opcode "scas" [hiddenAccumulator modifiers opcode, .stringDestination]
        "repe "
  | 0xC0 | 0xC1 => shiftGroup size (.immediate .byte)
  | 0xC2 =>
      .plain {
        mnemonic := "ret"
        arguments := [.immediate .word]
        flow := .ret
        showsWidth := true }
  | 0xC3 => .plain { mnemonic := "ret", flow := .ret, showsWidth := true }
  | 0xC4 => .modrm { mnemonic := "les", arguments := [.middle .operand, .memory ""] }
  | 0xC5 => .modrm { mnemonic := "lds", arguments := [.middle .operand, .memory ""] }
  | 0xC6 | 0xC7 => single { mnemonic := "mov", arguments := [rmShown size, .immediate size] }
  | 0xC8 => .plain { mnemonic := "enter", arguments := [.immediate .word, .immediate .byte] }
  | 0xC9 => simple "leave"
  | 0xCA =>
      .plain {
        mnemonic := "retf"
        arguments := [.immediate .word]
        flow := .ret
        spelling := some "ret far"
        showsWidth := true }
  | 0xCB =>
      .plain { mnemonic := "retf", flow := .ret, spelling := some "ret far", showsWidth := true }
  | 0xCC => .plain { mnemonic := "int3", flow := .interrupt }
  | 0xCD => .plain { mnemonic := "int", arguments := [.immediate .byte], flow := .interrupt }
  | 0xCE => .plain { mnemonic := "into", flow := .interrupt }
  | 0xCF => .plain { mnemonic := byWidth modifiers "iret" "iretd", flow := .ret }
  | 0xD0 | 0xD1 => shiftGroup size .one
  | 0xD2 | 0xD3 => shiftGroup size (.fixed "cl")
  | 0xD4 => .plain { mnemonic := "aam", arguments := [.immediate .byte] }
  | 0xD5 => .plain { mnemonic := "aad", arguments := [.immediate .byte] }
  | 0xD6 => simple "salc"
  | 0xD7 => .plain { mnemonic := "xlatb", arguments := [.tableEntry], spelling := some "xlat" }
  | 0xE0 | 0xE1 | 0xE2 | 0xE3 =>
      .plain {
        mnemonic := ((loopNames modifiers)[opcode % 4]?).getD ""
        arguments := [.shortBranch false]
        flow := .conditionalJump
        showsWidth := true }
  | 0xE4 | 0xE5 => .plain { mnemonic := "in", arguments := [accumulator size, .immediate .byte] }
  | 0xE6 | 0xE7 => .plain { mnemonic := "out", arguments := [.immediate .byte, accumulator size] }
  | 0xE8 =>
      .plain {
        mnemonic := "call"
        arguments := [.nearBranch]
        flow := .call false
        showsWidth := true }
  | 0xE9 =>
      .plain {
        mnemonic := "jmp"
        arguments := [.nearBranch]
        flow := .jump false
        showsWidth := true }
  | 0xEA =>
      .plain {
        mnemonic := "jmp"
        arguments := [.farPointer]
        flow := .jump true
        spelling := some "jmp far"
        showsWidth := true }
  | 0xEB =>
      .plain {
        mnemonic := "jmp"
        arguments := [.shortBranch true]
        flow := .jump false
        showsWidth := true }
  | 0xEC | 0xED => .plain { mnemonic := "in", arguments := [accumulator size, .fixed "dx"] }
  | 0xEE | 0xEF => .plain { mnemonic := "out", arguments := [.fixed "dx", accumulator size] }
  | 0xF1 => .plain { mnemonic := "int1", flow := .interrupt }
  | 0xF4 => .plain { mnemonic := "hlt", flow := .halt }
  | 0xF5 => simple "cmc"
  | 0xF6 | 0xF7 => unaryGroup size
  | 0xF8 => simple "clc"
  | 0xF9 => simple "stc"
  | 0xFA => simple "cli"
  | 0xFB => simple "sti"
  | 0xFC => simple "cld"
  | 0xFD => simple "std"
  | 0xFE | 0xFF => indirectGroup modifiers size
  | _ => .unknown

/-- The opcodes of one byte. -/
def ofOpcode (modifiers : Modifiers) (opcode : Nat) : Encoding :=
  let register : Argument := .numbered .operand (opcode % 8)
  if opcode < 0x40 ∧ opcode % 8 < 6 then arithmetic opcode
  else if 0x40 ≤ opcode ∧ opcode < 0x48 then
    .plain { mnemonic := "inc", arguments := [register] }
  else if 0x48 ≤ opcode ∧ opcode < 0x50 then
    .plain { mnemonic := "dec", arguments := [register] }
  else if 0x50 ≤ opcode ∧ opcode < 0x58 then
    .plain { mnemonic := "push", arguments := [register] }
  else if 0x58 ≤ opcode ∧ opcode < 0x60 then
    .plain { mnemonic := "pop", arguments := [register] }
  else if 0x70 ≤ opcode ∧ opcode < 0x80 then conditionalJump (opcode % 16) (.shortBranch true)
  else if 0x90 < opcode ∧ opcode < 0x98 then
    .plain { mnemonic := "xchg", arguments := [register, accumulator .operand] }
  else if 0xB0 ≤ opcode ∧ opcode < 0xB8 then
    .plain { mnemonic := "mov", arguments := [.numbered .byte (opcode % 8), .immediate .byte] }
  else if 0xB8 ≤ opcode ∧ opcode < 0xC0 then
    .plain { mnemonic := "mov", arguments := [register, .immediate .operand] }
  else individual modifiers opcode

/-- The opcodes behind an escape byte. -/
def ofEscaped (opcode : Nat) : Encoding :=
  if 0x80 ≤ opcode ∧ opcode < 0x90 then conditionalJump (opcode % 16) .nearBranch
  else if 0x90 ≤ opcode ∧ opcode < 0xA0 then
    .modrm { mnemonic := "set" ++ conditionName (opcode % 16), arguments := [rmShown .byte] }
  else
    match opcode with
    | 0x0B => .plain { mnemonic := "ud2", flow := .halt }
    | 0xA0 => .plain { mnemonic := "push", arguments := [.fixed "fs"] }
    | 0xA1 => .plain { mnemonic := "pop", arguments := [.fixed "fs"] }
    | 0xA8 => .plain { mnemonic := "push", arguments := [.fixed "gs"] }
    | 0xA9 => .plain { mnemonic := "pop", arguments := [.fixed "gs"] }
    | 0xB6 => .modrm { mnemonic := "movzx", arguments := [.middle .operand, rmShown .byte] }
    | 0xB7 => .modrm { mnemonic := "movzx", arguments := [.middle .operand, rmShown .word] }
    | 0xBE => .modrm { mnemonic := "movsx", arguments := [.middle .operand, rmShown .byte] }
    | 0xBF => .modrm { mnemonic := "movsx", arguments := [.middle .operand, rmShown .word] }
    | _ => .unknown

end Encoding

end RealMode.X86
