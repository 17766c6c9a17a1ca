import RealMode.Analysis.State
import RealMode.JumpTable

/-! Scanning: decoding instructions one after the other until control leaves them.

Each instruction is marked as soon as it is decoded, and the references that it makes are put
on the agenda. -/

set_option autoImplicit false

namespace RealMode.Analysis

/-- Puts the reference of a branch on the agenda. Without a static target it is only noted. -/
def branch (state : Analysis) (instruction : Instruction) (here : Address)
    (kind : Reference.Kind) : Analysis :=
  let target := state.program.branchTarget? instruction here
  let noted :=
    match target with
    | none => state.report (some here) .dynamicTarget instruction.body
    | some _ => state
  noted.enqueueRecorded ⟨some here, target, kind, none⟩

/-- The table behind a near jump, if tables are followed. -/
def tableOf? (state : Analysis) (instruction : Instruction) (here : Address) (far : Bool) :
    Option Address :=
  if !far && state.settings.jumpTables then JumpTable.start? state.program instruction here
  else none

/-- Follows a jump, through a table if it goes through one. -/
def jump (state : Analysis) (instruction : Instruction) (here : Address) (far : Bool) :
    Analysis :=
  match state.tableOf? instruction here far with
  | some slot => state.enqueueRecorded (.indexed here slot)
  | none => state.branch instruction here (if far then .farJump else .nearJump)

def call (state : Analysis) (instruction : Instruction) (here : Address) (far : Bool) :
    Analysis :=
  state.branch instruction here (if far then .farCall else .nearCall)

/-- Follows both ways out of a conditional jump. -/
def conditional (state : Analysis) (instruction : Instruction) (here : Address)
    (next : Option Address) : Analysis :=
  let taken := state.branch instruction here .conditionalJump
  match next with
  | none => taken
  | some next =>
      taken.enqueue ⟨⟨some here, some next, .conditionalJump, none⟩,
        state.settings.recordFallThrough⟩

def reportWrapped (state : Analysis) (here : Address) (instruction : Instruction) : Analysis :=
  state.report (some here) .addressWrapped ("address after " ++ instruction.body ++ " wraps")

/-- The finding of an instruction that does not lie on unknown bytes. -/
def overlapCode? (image : Image) (start stop : Nat) : Option Diagnostic.Code :=
  if image.isUnattributed start stop then none
  else if (List.range' start (min stop image.size - start)).any
      fun offset => (image.marksAt offset).isData then
    some .ranIntoData
  else
    some .overlappingInstruction

/-- What became of one instruction of a scan. -/
inductive Visit where
  /-- There is no instruction on unknown bytes; nothing was marked. -/
  | refused (state : Analysis)
  /-- The instruction ends its block. -/
  | left (state : Analysis) (stop : Nat) (exit : Block.Exit)
  /-- Control runs on to the next instruction. -/
  | passed (state : Analysis) (next : Address) (stop : Nat)
  | failed (state : Analysis) (fault : Fault)

/-- Runs on behind an instruction, unless the address behind it wraps. -/
def proceed (state : Analysis) (instruction : Instruction) (here : Address)
    (next : Option Address) : Visit :=
  match next with
  | none => .left (state.reportWrapped here instruction) instruction.stop .incomplete
  | some next => .passed state next instruction.stop

/-- Follows the ways out of an instruction that has been marked. -/
def depart (state : Analysis) (instruction : Instruction) (here : Address) : Visit :=
  let next := here.add? (UInt16.ofNat instruction.length)
  match instruction.flow with
  | .ret | .halt => .left state instruction.stop .terminated
  | .jump far => .left (state.jump instruction here far) instruction.stop .terminated
  | .conditionalJump =>
      let followed := state.conditional instruction here next
      match next with
      | none => .left (followed.reportWrapped here instruction) instruction.stop .incomplete
      | some _ => .left followed instruction.stop .conditional
  | .call far => (state.call instruction here far).proceed instruction here next
  | .next | .interrupt => state.proceed instruction here next

/-- The finding of a place at which nothing can be decoded. -/
def decodeCode : DecodeError → Diagnostic.Code
  | .brokenFixup _ _ => .brokenFixup
  | _ => .invalidInstruction

/-- Decodes, marks and follows one instruction. -/
def visit (decoder : Decoder) (state : Analysis) (image : Nat) (here : Address) (offset : Nat) :
    Visit :=
  match state.program.image? image with
  | none => .refused state
  | some found =>
      match decoder found offset here.offset with
      | .error error => .refused (state.report (some here) (decodeCode error) error.message)
      | .ok instruction =>
          match overlapCode? found offset instruction.stop with
          | some code =>
              .refused (state.report (some here) code
                (instruction.body ++ " overlaps analyzed bytes"))
          | none =>
              match found.markFault? offset instruction.length with
              | some fault => .failed state fault
              | none =>
                  (state.markInstruction image offset instruction.length).depart instruction here

/-- How a scan ended: the offset behind its last instruction, and the exit of its block or the
fault that stopped it. -/
structure Scanned where
  state : Analysis
  stop : Nat
  exit : Except Fault Block.Exit

/-- Scans at most `budget` instructions from an offset on, up to an instruction that is known. -/
def scan (decoder : Decoder) (image : Nat) :
    (budget : Nat) → (state : Analysis) → (here : Address) → (offset : Nat) → Scanned
  | 0, state, _, offset => ⟨state, offset, .ok .incomplete⟩
  | budget + 1, state, here, offset =>
      match visit decoder state image here offset with
      | .refused state => ⟨state, offset, .ok .incomplete⟩
      | .left state stop exit => ⟨state, stop, .ok exit⟩
      | .failed state fault => ⟨state, offset, .error fault⟩
      | .passed state next stop =>
          if (state.program.marksAt ⟨image, stop⟩).startsCode then
            ⟨state, stop, .ok .fallThrough⟩
          else
            scan decoder image budget state next stop

end RealMode.Analysis
