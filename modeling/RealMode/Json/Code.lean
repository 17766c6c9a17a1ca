import RealMode.Instruction
import RealMode.Json.Memory

/-! JSON forms of instructions. -/

set_option autoImplicit false

namespace RealMode

open Json (record)

namespace Flow

def toJson : Flow → Json
  | .next => .ofString "Next"
  | .call far => record [("Call", record [("far", .bool far)])]
  | .jump far => record [("Jump", record [("far", .bool far)])]
  | .conditionalJump => .ofString "ConditionalJump"
  | .ret => .ofString "Return"
  | .halt => .ofString "Halt"
  | .interrupt => .ofString "Interrupt"

def farLayout : Json.Layout := [("far", .required)]

def far? (value : Json) : Option Bool :=
  match value.fields? farLayout with
  | some [some far] => far.bool?
  | _ => none

def ofJson? (value : Json) : Option Flow :=
  match value.variant? with
  | some ("Call", some contents) => (far? contents).map .call
  | some ("Jump", some contents) => (far? contents).map .jump
  | _ =>
      match value.plainName? with
      | some "Next" => some .next
      | some "ConditionalJump" => some .conditionalJump
      | some "Return" => some .ret
      | some "Halt" => some .halt
      | some "Interrupt" => some .interrupt
      | _ => none

end Flow

namespace Operand

def Field.name : Field → String
  | .whole => "Whole"
  | .offset => "Offset"
  | .selector => "Selector"

def Field.toJson (field : Field) : Json := .ofString field.name

def Field.ofJson? : Json → Option Field :=
  Json.choice? Field.name [.whole, .offset, .selector]

def Kind.toJson : Kind → Json
  | .relative target => record [("Relative", record [("target", .ofNat target.toNat)])]
  | .pointer selector offset =>
      record [("Pointer",
        record [("selector", .ofNat selector.toNat), ("offset", .ofNat offset.toNat)])]
  | .memory segment base index displacement =>
      record [("Memory",
        record [("segment", .ofString segment), ("base", .ofOption .ofString base),
          ("index", .ofOption .ofString index), ("displacement", .ofNat displacement.toNat)])]
  | .register name => record [("Register", .ofString name)]
  | .immediate value size =>
      record [("Immediate", record [("value", .ofNat value.toNat), ("size", .ofNat size.toNat)])]
  | .other => .ofString "Other"

def relativeLayout : Json.Layout := [("target", .required)]
def pointerLayout : Json.Layout := [("selector", .required), ("offset", .required)]
def memoryLayout : Json.Layout :=
  [("segment", .required), ("base", .optional), ("index", .optional), ("displacement", .required)]
def immediateLayout : Json.Layout := [("value", .required), ("size", .required)]

def relative? (contents : Json) : Option Kind :=
  match contents.fields? relativeLayout with
  | some [some target] => target.word?.map .relative
  | _ => none

def pointer? (contents : Json) : Option Kind :=
  match contents.fields? pointerLayout with
  | some [some selector, some offset] => do some (.pointer (← selector.word?) (← offset.word?))
  | _ => none

def memory? (contents : Json) : Option Kind :=
  match contents.fields? memoryLayout with
  | some [some segment, base, index, some displacement] => do
      some (.memory (← segment.string?) (← Json.optional? Json.string? base)
        (← Json.optional? Json.string? index) (← displacement.word?))
  | _ => none

def immediate? (contents : Json) : Option Kind :=
  match contents.fields? immediateLayout with
  | some [some value, some size] => do some (.immediate (← value.quad?) (← size.byte?))
  | _ => none

def Kind.ofJson? (value : Json) : Option Kind :=
  match value.variant? with
  | some ("Relative", some contents) => relative? contents
  | some ("Pointer", some contents) => pointer? contents
  | some ("Memory", some contents) => memory? contents
  | some ("Register", some name) => name.string?.map .register
  | some ("Immediate", some contents) => immediate? contents
  | some ("Other", none) | some ("Other", some .null) => some .other
  | _ => none

def Patch.toJson (patch : Patch) : Json :=
  record [("field", patch.field.toJson), ("fixup", patch.fixup.toJson)]

def Patch.layout : Json.Layout := [("field", .required), ("fixup", .required)]

def Patch.ofJson? (value : Json) : Option Patch :=
  match value.fields? layout with
  | some [some field, some fixup] => do some ⟨← Field.ofJson? field, ← Fixup.ofJson? fixup⟩
  | _ => none

def toJson (operand : Operand) : Json :=
  record [("kind", operand.kind.toJson), ("fixup", .ofOption Patch.toJson operand.patch)]

def layout : Json.Layout := [("kind", .required), ("fixup", .optional)]

def ofJson? (value : Json) : Option Operand :=
  match value.fields? layout with
  | some [some kind, patch] => do
      some ⟨← Kind.ofJson? kind, ← Json.optional? Patch.ofJson? patch⟩
  | _ => none

end Operand

namespace Instruction

def toJson (instruction : Instruction) : Json :=
  record [("offset", .ofNat instruction.offset), ("ip", .ofNat instruction.ip.toNat),
    ("length", .ofNat instruction.length), ("mnemonic", .ofString instruction.mnemonic),
    ("text", .ofString instruction.body), ("flow", instruction.flow.toJson),
    ("operands", .ofList Operand.toJson instruction.operands)]

def layout : Json.Layout :=
  [("offset", .required), ("ip", .required), ("length", .required), ("mnemonic", .required),
    ("text", .required), ("flow", .required), ("operands", .required)]

def ofJson? (value : Json) : Option Instruction :=
  match value.fields? layout with
  | some [some offset, some ip, some length, some mnemonic, some body, some flow,
      some operands] => do
      some ⟨← offset.offset?, ← ip.word?, ← length.offset?, ← mnemonic.string?, ← body.string?,
        ← Flow.ofJson? flow, ← operands.list? Operand.ofJson?⟩
  | _ => none

end Instruction

end RealMode
