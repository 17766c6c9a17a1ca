import RealMode.Image
import RealMode.Json.Record

/-! JSON forms of addresses, fix-ups and images. -/

set_option autoImplicit false

namespace RealMode

open Json (record)

namespace Referent

def toJson : Referent → Json
  | .segment id => record [("Segment", .ofNat id)]
  | .frame selector => record [("Frame", .ofNat selector.toNat)]
  | .external id => record [("External", .ofNat id)]
  | .group id => record [("Group", .ofNat id)]

def ofJson? (value : Json) : Option Referent :=
  match value.variant? with
  | some ("Segment", some id) => id.id?.map .segment
  | some ("Frame", some selector) => selector.word?.map .frame
  | some ("External", some id) => id.id?.map .external
  | some ("Group", some id) => id.id?.map .group
  | _ => none

end Referent

namespace Address

def toJson (address : Address) : Json :=
  record [("referent", address.referent.toJson), ("offset", .ofNat address.offset.toNat)]

def layout : Json.Layout := [("referent", .required), ("offset", .required)]

def ofJson? (value : Json) : Option Address :=
  match value.fields? layout with
  | some [some referent, some offset] => do
      some ⟨← Referent.ofJson? referent, ← offset.word?⟩
  | _ => none

end Address

namespace Place

def toJson (place : Place) : Json :=
  record [("image", .ofNat place.image), ("offset", .ofNat place.offset)]

def layout : Json.Layout := [("image", .required), ("offset", .required)]

def ofJson? (value : Json) : Option Place :=
  match value.fields? layout with
  | some [some image, some offset] => do some ⟨← image.id?, ← offset.offset?⟩
  | _ => none

end Place

namespace Fixup

def Width.name : Width → String
  | .lowByte => "LowByte"
  | .offset16 => "Offset16"
  | .base16 => "Base16"
  | .pointer32 => "Pointer32"

def Width.toJson (width : Width) : Json := .ofString width.name

def Width.ofJson? : Json → Option Width :=
  Json.choice? Width.name [.lowByte, .offset16, .base16, .pointer32]

def Mode.name : Mode → String
  | .selfRelative => "SelfRelative"
  | .segmentRelative => "SegmentRelative"

def Mode.toJson (mode : Mode) : Json := .ofString mode.name

def Mode.ofJson? : Json → Option Mode :=
  Json.choice? Mode.name [.selfRelative, .segmentRelative]

def Frame.toJson : Frame → Json
  | .referent base => record [("Referent", base.toJson)]
  | .target => .ofString "Target"

def Frame.ofJson? (value : Json) : Option Frame :=
  match value.variant? with
  | some ("Referent", some base) => (Referent.ofJson? base).map .referent
  | some ("Target", none) | some ("Target", some .null) => some .target
  | _ => none

def Target.toJson (target : Target) : Json :=
  record [("referent", target.referent.toJson),
    ("displacement", .ofNat target.displacement.toNat)]

def Target.layout : Json.Layout := [("referent", .required), ("displacement", .required)]

def Target.ofJson? (value : Json) : Option Target :=
  match value.fields? layout with
  | some [some referent, some displacement] => do
      some ⟨← Referent.ofJson? referent, ← displacement.word?⟩
  | _ => none

def toJson (fixup : Fixup) : Json :=
  record [("start", .ofNat fixup.start), ("location", fixup.width.toJson),
    ("mode", fixup.mode.toJson), ("target", fixup.target.toJson),
    ("frame", .ofOption Frame.toJson fixup.frame)]

def layout : Json.Layout :=
  [("start", .required), ("location", .required), ("mode", .required), ("target", .required),
    ("frame", .optional)]

def ofJson? (value : Json) : Option Fixup :=
  match value.fields? layout with
  | some [some start, some width, some mode, some target, frame] => do
      some ⟨← start.offset?, ← Width.ofJson? width, ← Mode.ofJson? mode, ← Target.ofJson? target,
        ← Json.optional? Frame.ofJson? frame⟩
  | _ => none

end Fixup

namespace FixupTable

def toJson (table : FixupTable) : Json :=
  record [("fixups", .ofList Fixup.toJson table.entries), ("sealed", .bool table.isSealed)]

def layout : Json.Layout := [("fixups", .required), ("sealed", .required)]

/-- Reads a table as it stands, without a look at the order of its fix-ups. -/
def ofJson? (value : Json) : Option FixupTable :=
  match value.fields? layout with
  | some [some entries, some isSealed] => do
      some ⟨← entries.list? Fixup.ofJson?, ← isSealed.bool?⟩
  | _ => none

end FixupTable

namespace Marks

def toJson (marks : Marks) : Json := .ofString marks.text

def ofJson? (value : Json) : Option Marks := do ofText? (← value.string?)

end Marks

namespace Image

def toJson (image : Image) : Json :=
  record [("id", .ofNat image.id), ("name", .ofString image.name),
    ("bytes", .ofList (fun byte => .ofNat byte.toNat) image.bytes.toList),
    ("attributes", .ofList Marks.toJson image.marks.toList), ("fixups", image.fixups.toJson)]

def layout : Json.Layout :=
  [("id", .required), ("name", .required), ("bytes", .required), ("attributes", .required),
    ("fixups", .required)]

/-- Reads an image as it stands, without a look at whether its parts fit together. -/
def ofJson? (value : Json) : Option Image :=
  match value.fields? layout with
  | some [some id, some name, some bytes, some marks, some fixups] => do
      some ⟨← id.id?, ← name.string?, (← bytes.list? Json.byte?).toArray,
        (← marks.list? Marks.ofJson?).toArray, ← FixupTable.ofJson? fixups⟩
  | _ => none

end Image

end RealMode
