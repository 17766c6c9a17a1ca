import RealMode.Program.Target

/-! Jump tables: words behind an indexed jump through the code segment.

Slots are read one at a time. A slot ends the table if it has been marked already, if it lies
in another segment than the jump, or if its value cannot be the start of an instruction. -/

set_option autoImplicit false

namespace RealMode.JumpTable

def slotSize : Nat := 2

/-- Why a slot is not part of a table. -/
inductive Refusal where
  | unresolvedSlot
  | foreignSegment
  | slotAttributed
  | targetOutOfImage
  | targetNotCode
  | notAnIndexedJump
  deriving DecidableEq, Repr

/-- A slot that was read. -/
structure Slot where
  /-- The reference of the jump to the value of the slot. -/
  reference : Reference
  /-- The reference that waits for the following slot. -/
  next : Option Reference
  place : Place
  location : Address
  deriving DecidableEq, Repr

/-- The address of the table behind a jump at `source`, if the jump goes through it. -/
def start? (program : Program) (instruction : Instruction) (source : Address) :
    Option Address := do
  if instruction.flow ≠ .jump false then none
  let operand ← instruction.operands.head?
  match operand.kind with
  | .memory "cs" (some _) none displacement =>
      let following : Address := ⟨source.referent, ← instruction.nextIp?⟩
      match operand.patch with
      | some patch =>
          let place ← program.resolve (← program.fixupAddress? patch.fixup)
          if program.resolve following = some place then some following else none
      | none => if displacement = following.offset then some following else none
  | _ => none

/-- Whether a slot lies in another segment than the jump that reads it. -/
def isForeign (program : Program) (jump slot : Place) : Bool :=
  match program.segmentAt? jump with
  | none => false
  | some owner => (program.segmentAt? slot).map Segment.id ≠ some owner.id

/-- The word in an unmarked slot. -/
def value? (program : Program) (slot : Place) : Option UInt16 := do
  let image ← program.image? slot.image
  if image.isUnattributed slot.offset (slot.offset + slotSize) then image.word? slot.offset
  else none

/-- Reads the slot of an indexed jump without marking it. -/
def read (program : Program) (reference : Reference) : Except Refusal Slot :=
  match reference with
  | ⟨some source, none, .indexedJump, some location⟩ =>
      match program.resolve location with
      | none => .error .unresolvedSlot
      | some slot =>
          if (program.resolve source).any (isForeign program · slot) then
            .error .foreignSegment
          else
            match value? program slot with
            | none => .error .slotAttributed
            | some value =>
                let target : Address := ⟨source.referent, value⟩
                match (program.resolve target).filter program.contains with
                | none => .error .targetOutOfImage
                | some place =>
                    let marks := program.marksAt place
                    if marks.isUnknown || marks.startsCode then
                      .ok ⟨reference.withTarget target,
                        (location.add? (UInt16.ofNat slotSize)).map (.indexed source), slot, location⟩
                    else
                      .error .targetNotCode
  | _ => .error .notAnIndexedJump

/-- Marks the bytes of a slot that was read as data. -/
def consume (program : Program) (slot : Slot) : Except Refusal Slot × Program :=
  match program.image? slot.place.image with
  | none => (.error .slotAttributed, program)
  | some image =>
      match image.mark .data slot.place.offset slotSize with
      | .ok marked => (.ok slot, program.modifyImage slot.place.image fun _ => marked)
      | .error _ kept => (.error .slotAttributed, program.modifyImage slot.place.image fun _ => kept)

/-- Reads the slot of an indexed jump and marks its bytes. The program stands by the answer. -/
def take (program : Program) (reference : Reference) : Except Refusal Slot × Program :=
  match read program reference with
  | .error refusal => (.error refusal, program)
  | .ok slot => consume program slot

end RealMode.JumpTable
