import RealMode.Decoder

/-! Listings: instructions that follow each other in an image. -/

set_option autoImplicit false

namespace RealMode

/-- Instructions in a row, and the error that ended them. -/
structure Listing where
  instructions : List Instruction
  error : Option DecodeError
  deriving DecidableEq, Repr

namespace Listing

/-- Decodes up to `budget` instructions in a row. The row ends with the image and with the
segment. -/
def sweep (decoder : Decoder) (image : Image) :
    (budget : Nat) → (offset : Nat) → (ip : UInt16) → Listing
  | 0, _, _ => ⟨[], none⟩
  | budget + 1, offset, ip =>
      match decoder image offset ip with
      | .error error => ⟨[], some error⟩
      | .ok instruction =>
          match instruction.nextIp? with
          | some next =>
              if image.contains instruction.stop then
                let rest := sweep decoder image budget instruction.stop next
                { rest with instructions := instruction :: rest.instructions }
              else
                ⟨[instruction], none⟩
          | none => ⟨[instruction], none⟩

/-- The listing of the rest of an image. Instructions have a byte or more, so the number of bytes
bounds their number. -/
def ofRest (decoder : Decoder) (image : Image) (offset : Nat) (ip : UInt16) : Listing :=
  sweep decoder image (image.size + 1) offset ip

end Listing

end RealMode
