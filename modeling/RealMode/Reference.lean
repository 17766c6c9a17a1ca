import RealMode.Address

/-! References from an instruction to what it reaches. -/

set_option autoImplicit false

namespace RealMode

namespace Reference

/-- Why a reference exists. The order of the constructors is the order in which references
are followed. -/
inductive Kind where
  | entry
  | nearJump
  | farJump
  | nearCall
  | farCall
  | conditionalJump
  | indexedJump
  deriving DecidableEq, Repr

def Kind.priority : Kind → Nat
  | .entry => 0
  | .nearJump => 1
  | .farJump => 2
  | .nearCall => 3
  | .farCall => 4
  | .conditionalJump => 5
  | .indexedJump => 6

def Kind.isCall : Kind → Bool
  | .nearCall | .farCall => true
  | _ => false

def Kind.text : Kind → String
  | .entry => "entry"
  | .nearJump => "near_jump"
  | .farJump => "far_jump"
  | .nearCall => "near_call"
  | .farCall => "far_call"
  | .conditionalJump => "conditional_jump"
  | .indexedJump => "near_indexed_jump"

end Reference

/-- A reference knows at least one of its ends: an entry point has no source, a jump through
a register has no target. An indexed jump also knows the table slot that it reads. -/
structure Reference where
  source : Option Address
  target : Option Address
  kind : Reference.Kind
  slot : Option Address
  deriving DecidableEq, Repr

namespace Reference

/-- Whether one of the ends is known. -/
def hasEnd (reference : Reference) : Bool :=
  reference.source.isSome || reference.target.isSome

/-- The reference with the given ends, unless both are unknown. -/
def between? (source target : Option Address) (kind : Kind) : Option Reference :=
  let reference : Reference := ⟨source, target, kind, none⟩
  if reference.hasEnd then some reference else none

def toEntry (target : Address) : Reference := ⟨none, some target, .entry, none⟩

/-- The reference of an indexed jump whose table slot has not been read yet. -/
def indexed (source slot : Address) : Reference := ⟨some source, none, .indexedJump, some slot⟩

def withTarget (reference : Reference) (target : Address) : Reference :=
  { reference with target := some target }

/-- Whether the target is unknown. -/
def isDynamic (reference : Reference) : Bool := reference.target.isNone

def comparePriority (left right : Reference) : Ordering :=
  compare left.kind.priority right.kind.priority

def endText : Option Address → String
  | some address => address.text
  | none => "?"

def text (reference : Reference) : String :=
  reference.kind.text ++ " " ++ endText reference.source ++ " -> " ++ endText reference.target

end Reference

end RealMode
