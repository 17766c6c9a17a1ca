import RealMode.Text.Numeral

/-! Symbolic addresses of a program and places in its images.

An address counts 16-bit offsets from the base of a referent, which a program resolves to
a place: a byte of an image. Numbers of images, segments, groups and externals are unbounded
here; offsets and selectors are machine words. Byte offsets in images are counted with 64 bits,
which shows where the end of a range is computed. -/

set_option autoImplicit false

namespace RealMode

/-- What the offset of an address counts from. -/
inductive Referent where
  | segment (id : Nat)
  | frame (selector : UInt16)
  | external (id : Nat)
  | group (id : Nat)
  deriving DecidableEq, Ord, Repr

def Referent.text : Referent → String
  | .segment id => "seg" ++ Numeral.decimal id
  | .frame selector => Numeral.hex 4 selector.toNat
  | .external id => "ext" ++ Numeral.decimal id
  | .group id => "grp" ++ Numeral.decimal id

/-- A symbolic address. -/
structure Address where
  referent : Referent
  offset : UInt16
  deriving DecidableEq, Ord, Repr

def Address.text (address : Address) : String :=
  address.referent.text ++ ":" ++ Numeral.hex 4 address.offset.toNat

/-- The address `delta` bytes further, modulo 64K. -/
def Address.wrappingAdd (address : Address) (delta : UInt16) : Address :=
  { address with offset := address.offset + delta }

/-- The address displaced by a signed amount, modulo 64K. -/
def Address.wrappingMove (address : Address) (delta : Int) : Address :=
  { address with offset := UInt16.ofNat ((address.offset.toNat + delta) % 65536).toNat }

/-- The address displaced by a signed amount, if its offset stays a word. -/
def Address.move? (address : Address) (delta : Int) : Option Address :=
  let target : Int := address.offset.toNat + delta
  if 0 ≤ target ∧ target < 65536 then
    some { address with offset := UInt16.ofNat target.toNat }
  else
    none

/-- The address `delta` bytes further, if its offset stays a word. -/
def Address.add? (address : Address) (delta : UInt16) : Option Address :=
  address.move? delta.toNat

/-- The byte offset `length` bytes behind another one, modulo the range of such offsets. -/
def offsetBehind (start length : Nat) : Nat := (start + length) % UInt64.size

theorem offsetBehind_of_lt {start length : Nat} (fits : start + length < UInt64.size) :
    offsetBehind start length = start + length :=
  Nat.mod_eq_of_lt fits

/-- A byte position of an image. It need not lie inside the image. -/
structure Place where
  image : Nat
  offset : Nat
  deriving DecidableEq, Repr

namespace Place

/-- Places are ordered by image, then by offset. -/
instance : LT Place where
  lt left right := left.image < right.image ∨ (left.image = right.image ∧ left.offset < right.offset)

theorem lt_iff {left right : Place} :
    left < right ↔ left.image < right.image ∨ (left.image = right.image ∧ left.offset < right.offset) :=
  Iff.rfl

instance (left right : Place) : Decidable (left < right) :=
  decidable_of_iff _ lt_iff.symm

instance : Ord Place where
  compare left right := compareOfLessAndEq left right

def text (place : Place) : String :=
  "img" ++ Numeral.decimal place.image ++ "+" ++ Numeral.hex 5 place.offset

def add (place : Place) (delta : Nat) : Place :=
  { place with offset := place.offset + delta }

/-- The least of a list of places. -/
def least? : List Place → Option Place
  | [] => none
  | first :: rest => some (rest.foldl (fun low place => if place < low then place else low) first)

end Place

end RealMode
