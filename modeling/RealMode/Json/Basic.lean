/-! JSON values, as a reader of their texts sees them. -/

set_option autoImplicit false

namespace RealMode

namespace Json

/-- The contents of a string. A string with half of a surrogate pair is well formed, but there
are no characters that it stands for. -/
inductive Contents where
  | chars (text : String)
  | unpaired
  deriving DecidableEq, Repr

end Json

/-- A JSON value. Objects keep the order and the repetitions of their members, and numbers that
are not plain integers of a moderate size keep their spelling. -/
inductive Json where
  | null
  | bool (value : Bool)
  | int (value : Int)
  | real (spelling : String)
  | str (contents : Json.Contents)
  | arr (items : List Json)
  | obj (members : List (Json.Contents × Json))
  deriving Repr

namespace Json

def ofString (text : String) : Json := .str (.chars text)

def ofNat (value : Nat) : Json := .int value

def ofOption {α : Type} (write : α → Json) : Option α → Json
  | none => .null
  | some value => write value

def ofList {α : Type} (write : α → Json) (values : List α) : Json := .arr (values.map write)

/-- An object with the given members. -/
def record (members : List (String × Json)) : Json :=
  .obj (members.map fun member => (.chars member.1, member.2))

end Json

end RealMode
