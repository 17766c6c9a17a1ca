import RealMode.Block
import RealMode.Reference

/-! Faults: the causes for which an operation refuses its arguments, and their wording.

Findings about the code under analysis are no faults; they are diagnostics. -/

set_option autoImplicit false

namespace RealMode

inductive Fault where
  /-- A checked displacement left the 16-bit range. -/
  | addressWrapped (offset : UInt16) (delta : Int)
  /-- A reference without a source and without a target. -/
  | unattachedReference
  | overlappingFixup (start existing : Nat)
  /-- A sealed table of fix-ups was given one more. -/
  | sealedTable (start : Nat)
  /-- An image with sealed fix-ups was given one more. -/
  | sealedImage (name : String)
  | invalidRange (start stop size : Nat)
  | alreadyAttributed (offset : Nat)
  | blockExists (block : Block)
  | blockOverlap (block existing : Block)
  | invalidSplit (block : Block) (cutoff : Nat)
  | emptyQueue
  | unknownImage (id : Nat)
  | unknownSegment (id : Nat)
  | duplicateSymbol (name : String)
  | procedureExists (entry : Place)
  /-- A limit of the settings is zero. -/
  | zeroLimit (name : String)
  /-- A file is missing, or its contents are not text. -/
  | unreadable
  /-- A text does not have the form that its reader expects. -/
  | malformed
  /-- A recorded reference starts outside all blocks. -/
  | sourceWithoutBlock (reference : Reference)
  /-- A reference that is not a call was entered as one. -/
  | notACall (reference : Reference)
  deriving DecidableEq, Repr

def Fault.message : Fault → String
  | .addressWrapped offset delta =>
      "Address wrapped: " ++ Numeral.hexLiteral 4 offset.toNat ++ " " ++ Numeral.signed delta
  | .unattachedReference => "Cross-reference must have a source or a target"
  | .overlappingFixup start existing =>
      "Fix-up at " ++ Numeral.hexLiteral 1 start ++ " overlaps fix-up at " ++
        Numeral.hexLiteral 1 existing
  | .sealedTable start =>
      "Fix-ups of image fix-up at " ++ Numeral.hexLiteral 1 start ++ " are sealed"
  | .sealedImage name => "Fix-ups of image " ++ name ++ " are sealed"
  | .invalidRange start stop size =>
      "Invalid range " ++ Numeral.hexLiteral 1 start ++ ".." ++ Numeral.hexLiteral 1 stop ++
        " (image length " ++ Numeral.hexLiteral 1 size ++ ")"
  | .alreadyAttributed offset =>
      "Byte at " ++ Numeral.hexLiteral 1 offset ++ " is already attributed"
  | .blockExists block => "Basic block " ++ block.text ++ " already exists"
  | .blockOverlap block existing => "Basic block " ++ block.text ++ " overlaps " ++ existing.text
  | .invalidSplit block cutoff =>
      "Cannot split " ++ block.text ++ " at " ++ Numeral.hexLiteral 1 cutoff
  | .emptyQueue => "Worklist is empty"
  | .unknownImage id => "Unknown image: " ++ Numeral.decimal id
  | .unknownSegment id => "Unknown segment: " ++ Numeral.decimal id
  | .duplicateSymbol name => "Duplicate symbol: " ++ name
  | .procedureExists entry => "Procedure already exists at " ++ entry.text
  | .zeroLimit name => "Configuration error: limits." ++ name ++ " must be positive"
  | .unreadable => "Unreadable file"
  | .malformed => "Malformed text"
  | .sourceWithoutBlock reference =>
      "Internal error: no basic block at source of " ++ reference.text
  | .notACall reference => "Internal error: not a call reference: " ++ reference.text

/-- The address displaced by a signed amount, which must stay a 16-bit offset. -/
def Address.move (address : Address) (delta : Int) : Except Fault Address :=
  match address.move? delta with
  | some moved => .ok moved
  | none => .error (.addressWrapped address.offset delta)

/-- The reference with the given ends, of which one must be known. -/
def Reference.between (source target : Option Address) (kind : Reference.Kind) :
    Except Fault Reference :=
  match Reference.between? source target kind with
  | some reference => .ok reference
  | none => .error .unattachedReference

end RealMode
