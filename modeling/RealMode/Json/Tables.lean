import RealMode.Json.Memory
import RealMode.Program

/-! JSON forms of the tables of a program. -/

set_option autoImplicit false

namespace RealMode

open Json (record)

namespace Segment

def toJson (segment : Segment) : Json :=
  record [("id", .ofNat segment.id), ("name", .ofString segment.name),
    ("class", .ofString segment.className), ("image", .ofNat segment.image),
    ("start", .ofNat segment.start), ("length", .ofNat segment.length)]

def layout : Json.Layout :=
  [("id", .required), ("name", .required), ("class", .required), ("image", .required),
    ("start", .required), ("length", .required)]

def ofJson? (value : Json) : Option Segment :=
  match value.fields? layout with
  | some [some id, some name, some className, some image, some start, some length] => do
      some ⟨← id.id?, ← name.string?, ← className.string?, ← image.id?, ← start.offset?,
        ← length.offset?⟩
  | _ => none

end Segment

namespace Group

def toJson (group : Group) : Json :=
  record [("id", .ofNat group.id), ("name", .ofString group.name),
    ("segments", .ofList .ofNat group.segments)]

def layout : Json.Layout := [("id", .required), ("name", .required), ("segments", .required)]

def ofJson? (value : Json) : Option Group :=
  match value.fields? layout with
  | some [some id, some name, some segments] => do
      some ⟨← id.id?, ← name.string?, ← segments.list? Json.id?⟩
  | _ => none

end Group

namespace External

def toJson (external : External) : Json :=
  record [("id", .ofNat external.id), ("name", .ofString external.name)]

def layout : Json.Layout := [("id", .required), ("name", .required)]

def ofJson? (value : Json) : Option External :=
  match value.fields? layout with
  | some [some id, some name] => do some ⟨← id.id?, ← name.string?⟩
  | _ => none

end External

namespace Public

def toJson (symbol : Public) : Json :=
  record [("name", .ofString symbol.name), ("address", symbol.address.toJson)]

def layout : Json.Layout := [("name", .required), ("address", .required)]

def ofJson? (value : Json) : Option Public :=
  match value.fields? layout with
  | some [some name, some address] => do some ⟨← name.string?, ← Address.ofJson? address⟩
  | _ => none

end Public

end RealMode
