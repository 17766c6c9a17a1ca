import RealMode.Fixup.Table
import RealMode.Image.Marks

/-! Images: the bytes of a module with their marks and fix-ups.

Marks only move forward. A run of bytes can be marked once, and its first byte is its lead. -/

set_option autoImplicit false

namespace RealMode

structure Image where
  id : Nat
  name : String
  bytes : Array UInt8
  marks : Array Marks
  fixups : FixupTable
  deriving DecidableEq, Repr

namespace Image

/-- An image whose bytes are all unknown. -/
def fresh (id : Nat) (name : String) (bytes : Array UInt8) : Image :=
  ⟨id, name, bytes, Array.replicate bytes.size .empty, .empty⟩

def size (image : Image) : Nat := image.bytes.size

def contains (image : Image) (offset : Nat) : Bool := offset < image.size

/-- The word whose low byte is at `offset`. -/
def word? (image : Image) (offset : Nat) : Option UInt16 := do
  let low ← image.bytes[offset]?
  let high ← image.bytes[offset + 1]?
  some (low.toUInt16 + high.toUInt16 * 256)

/-- The marks of a byte. There are none outside the image. -/
def marksAt (image : Image) (offset : Nat) : Marks :=
  image.marks[offset]?.getD .empty

/-- Whether the bytes from `start` on, `count` of them, are all unknown. -/
def unknownRun (image : Image) (start : Nat) : (count : Nat) → Bool
  | 0 => true
  | count + 1 => (image.marksAt start).isUnknown && image.unknownRun (start + 1) count

/-- Whether a range lies inside the image and all its bytes are unknown. -/
def isUnattributed (image : Image) (start stop : Nat) : Bool :=
  stop ≤ image.marks.size && start ≤ stop && image.unknownRun start (stop - start)

/-- The first byte from `start` on, among `count` of them, that has been marked. -/
def firstMarked? (image : Image) (start : Nat) : (count : Nat) → Option Nat
  | 0 => none
  | count + 1 =>
      if (image.marksAt start).isUnknown then image.firstMarked? (start + 1) count else some start

/-- Gives `count` bytes from `start` on the same marks. -/
def paint (marks : Array Marks) (value : Marks) (start : Nat) : (count : Nat) → Array Marks
  | 0 => marks
  | count + 1 => paint (marks.setIfInBounds start value) value (start + 1) count

/-- The greatest number of a byte offset. -/
def offsetLimit : Nat := UInt64.size - 1

/-- Why `length` bytes from `start` on cannot be marked as one run. -/
def markFault? (image : Image) (start length : Nat) : Option Fault :=
  let stop := min (start + length) offsetLimit
  if length = 0 ∨ image.size < stop then
    some (.invalidRange start stop image.size)
  else
    (image.firstMarked? start length).map .alreadyAttributed

/-- The image with `length` bytes from `start` on marked as one run. -/
def painted (image : Image) (content : Content) (start length : Nat) : Image :=
  { image with
    marks := paint (image.marks.setIfInBounds start (content.marks.union .lead)) content.marks
      (start + 1) (length - 1) }

/-- Marks `length` unknown bytes from `start` on as one run. -/
def mark (image : Image) (content : Content) (start length : Nat) : Attempt Image :=
  match image.markFault? start length with
  | some fault => .error fault image
  | none => .ok (image.painted content start length)

/-- What an image says of a fault of its fix-ups. -/
def nameFault (image : Image) : Fault → Fault
  | .sealedTable _ => .sealedImage image.name
  | fault => fault

/-- Records a fix-up of bytes inside the image. -/
def addFixup (image : Image) (fixup : Fixup) : Attempt Image :=
  if image.size < fixup.stop then
    .error (.invalidRange fixup.start fixup.stop image.size) image
  else
    match image.fixups.add fixup with
    | .ok fixups => .ok { image with fixups }
    | .error fault fixups => .error (image.nameFault fault) { image with fixups }

def closeFixups (image : Image) : Image := { image with fixups := image.fixups.close }

/-- A maximal run of bytes with equal marks, of which there are some. -/
structure MarkRun where
  start : Nat
  stop : Nat
  marks : Marks
  deriving DecidableEq, Repr

/-- Adds the byte at `offset` to the runs before it, latest run first. -/
def extendRuns (runs : List MarkRun) (offset : Nat) (marks : Marks) : List MarkRun :=
  if marks = .empty then runs
  else
    match runs with
    | run :: earlier =>
        if run.stop = offset ∧ run.marks = marks then
          ⟨run.start, offset + 1, marks⟩ :: earlier
        else
          ⟨offset, offset + 1, marks⟩ :: run :: earlier
    | [] => [⟨offset, offset + 1, marks⟩]

/-- The runs of marked bytes in ascending order. -/
def markRuns (image : Image) : List MarkRun :=
  let step := fun (state : List MarkRun × Nat) (marks : Marks) =>
    (extendRuns state.1 state.2 marks, state.2 + 1)
  (image.marks.foldl step ([], 0)).1.reverse

end Image

end RealMode
