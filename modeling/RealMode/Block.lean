import RealMode.Address

/-! Basic blocks: byte ranges of an image that are entered at the start only. -/

set_option autoImplicit false

namespace RealMode

namespace Block

/-- How a block ends: in an instruction that leaves it, in a conditional jump, at the start
of the next block, or where analysis could not go on. -/
inductive Exit where
  | terminated
  | conditional
  | fallThrough
  | incomplete
  deriving DecidableEq, Repr

end Block

/-- The bytes of `image` from `start` up to `stop`. -/
structure Block where
  image : Nat
  start : Nat
  stop : Nat
  exit : Block.Exit
  deriving DecidableEq, Repr

namespace Block

/-- The place of the first byte. -/
def first (block : Block) : Place := ⟨block.image, block.start⟩

/-- The place just behind the last byte. -/
def behind (block : Block) : Place := ⟨block.image, block.stop⟩

def length (block : Block) : Nat := block.stop - block.start

def isEmpty (block : Block) : Bool := block.stop ≤ block.start

def contains (block : Block) (place : Place) : Bool :=
  place.image = block.image && block.start ≤ place.offset && place.offset < block.stop

def text (block : Block) : String :=
  "img" ++ Numeral.decimal block.image ++ "[" ++ Numeral.hex 5 block.start ++ ".." ++
    Numeral.hex 5 block.stop ++ ")"

theorem contains_iff {block : Block} {place : Place} :
    block.contains place = true ↔
      place.image = block.image ∧ block.start ≤ place.offset ∧ place.offset < block.stop := by
  simp [contains, and_assoc]

end Block

end RealMode
