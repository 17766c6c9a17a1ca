import RealMode.Block
import RealMode.Fault
import RealMode.Image

/-! The blocks of a program by place.

Blocks of an index are not empty and do not overlap. So the last block that starts at a place
or before it is the only one that can hold the place, and the neighbours of a new block decide
whether it fits. -/

set_option autoImplicit false

namespace RealMode

/-- Blocks by ascending place. -/
structure BlockIndex where
  blocks : List Block
  deriving DecidableEq, Repr

namespace BlockIndex

def empty : BlockIndex := ⟨[]⟩

/-- The blocks that start before a place. -/
def before (index : BlockIndex) (place : Place) : List Block :=
  index.blocks.takeWhile (·.first < place)

/-- The blocks that start at a place or behind it. -/
def notBefore (index : BlockIndex) (place : Place) : List Block :=
  index.blocks.dropWhile (·.first < place)

def startingAt? (index : BlockIndex) (place : Place) : Option Block :=
  (index.notBefore place).head?.filter (·.first = place)

/-- The block that holds a place. -/
def find? (index : BlockIndex) (place : Place) : Option Block :=
  ((index.startingAt? place).or (index.before place).getLast?).filter (·.contains place)

/-- The neighbour of a new block that shares a byte with it. -/
def clash? (index : BlockIndex) (block : Block) : Option Block :=
  ((index.before block.first).getLast?.filter
      fun earlier => earlier.image = block.image ∧ block.start < earlier.stop).or
    ((index.notBefore block.first).head?.filter
      fun later => later.image = block.image ∧ later.start < block.stop)

/-- Enters a block that is not empty and overlaps no other. -/
def add (index : BlockIndex) (block : Block) : Attempt BlockIndex :=
  if block.isEmpty then
    .error (.invalidRange block.start block.stop 0) index
  else
    match index.clash? block with
    | some existing =>
        .error (if existing = block then .blockExists block else .blockOverlap block existing) index
    | none => .ok ⟨index.before block.first ++ block :: index.notBefore block.first⟩

/-- The part of a block before a cut, which runs into the rest. -/
def head (block : Block) (cutoff : Nat) : Block :=
  { block with stop := cutoff, exit := .fallThrough }

/-- The part of a block behind a cut, which ends as the block did. -/
def tail (block : Block) (cutoff : Nat) : Block :=
  { block with start := cutoff }

/-- Whether a block of the index can be cut at an offset where `image` has a lead byte. -/
def canSplit (index : BlockIndex) (block : Block) (cutoff : Nat) (image : Image) : Bool :=
  image.id = block.image && block.start < cutoff && cutoff < block.stop &&
    (image.marksAt cutoff).isLead && index.blocks.contains block

/-- Replaces a block by its two parts at a lead byte strictly inside it. -/
def split (index : BlockIndex) (block : Block) (cutoff : Nat) (image : Image) :
    Attempt BlockIndex :=
  if index.canSplit block cutoff image then
    .ok ⟨index.blocks.flatMap fun other =>
      if other = block then [head block cutoff, tail block cutoff] else [other]⟩
  else
    .error (.invalidSplit block cutoff) index

def inImage (index : BlockIndex) (image : Nat) : List Block :=
  index.blocks.filter (·.image = image)

def size (index : BlockIndex) : Nat := index.blocks.length

end BlockIndex

end RealMode
