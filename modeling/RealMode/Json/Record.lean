import RealMode.Json.Basic

/-! Reading records, variants and numbers from JSON values.

A record is an object with its fields in any order, or an array of its fields in their order.
Members of an object that are not fields are skipped. A variant without contents is its name;
one with contents is an object with the name as its only key. -/

set_option autoImplicit false

namespace RealMode.Json

/-- Where a field may be missing. -/
inductive Presence where
  | required
  /-- The field may be missing from an object. -/
  | optional
  /-- The field may also be missing at the end of an array. -/
  | defaulted
  deriving DecidableEq, Repr

/-- The fields of a record in their order. -/
abbrev Layout := List (String × Presence)

/-- The value of a field of an object, which must not be repeated. -/
def member? (members : List (Contents × Json)) (field : String × Presence) :
    Option (Option Json) :=
  match members.filter (·.1 = .chars field.1) with
  | [] => if field.2 = .required then none else some none
  | [(_, value)] => some (some value)
  | _ => none

/-- The values of the fields of an array. -/
def positional? : Layout → List Json → Option (List (Option Json))
  | [], [] => some []
  | [], _ :: _ => none
  | field :: layout, [] =>
      if field.2 = .defaulted then (positional? layout []).map (none :: ·) else none
  | _ :: layout, item :: items => (positional? layout items).map (some item :: ·)

/-- The values of the fields of a record, with `none` for those that are missing. -/
def fields? (layout : Layout) : Json → Option (List (Option Json))
  | .obj members =>
      if members.any (·.1 = .unpaired) then none else layout.mapM (member? members)
  | .arr items => positional? layout items
  | _ => none

/-- The name of a variant and its contents. -/
def variant? : Json → Option (String × Option Json)
  | .str (.chars name) => some (name, none)
  | .obj [(.chars name, contents)] => some (name, some contents)
  | _ => none

/-- The name of a variant that has no contents. -/
def plainName? (value : Json) : Option String :=
  match value.variant? with
  | some (name, none) | some (name, some .null) => some name
  | _ => none

/-- The variant with a given name among some that have no contents. -/
def choice? {α : Type} (name : α → String) (choices : List α) (value : Json) : Option α := do
  let given ← value.plainName?
  choices.find? fun choice => name choice = given

/-- A natural number below a bound. -/
def natBelow? (bound : Nat) : Json → Option Nat
  | .int (.ofNat value) => if value < bound then some value else none
  | _ => none

/-- The number of an image, segment, group or external: 32 bits. -/
def id? : Json → Option Nat := natBelow? UInt32.size

/-- A byte offset or count: 64 bits. -/
def offset? : Json → Option Nat := natBelow? UInt64.size

def byte? (value : Json) : Option UInt8 := (natBelow? UInt8.size value).map UInt8.ofNat

def word? (value : Json) : Option UInt16 := (natBelow? UInt16.size value).map UInt16.ofNat

def quad? (value : Json) : Option UInt64 := (natBelow? UInt64.size value).map UInt64.ofNat

def bool? : Json → Option Bool
  | .bool value => some value
  | _ => none

def string? : Json → Option String
  | .str (.chars text) => some text
  | _ => none

/-- A value that may be null. -/
def nullable? {α : Type} (read : Json → Option α) : Json → Option (Option α)
  | .null => some none
  | value => (read value).map some

/-- The value of an optional field: null and a missing field are the same. -/
def optional? {α : Type} (read : Json → Option α) : Option Json → Option (Option α)
  | none => some none
  | some value => nullable? read value

/-- The value of a field with a default. -/
def orDefault? {α : Type} (read : Json → Option α) (fallback : α) : Option Json → Option α
  | none => some fallback
  | some value => read value

def list? {α : Type} (read : Json → Option α) : Json → Option (List α)
  | .arr items => items.mapM read
  | _ => none

end RealMode.Json
