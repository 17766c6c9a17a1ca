import RealMode.Json.Memory
import RealMode.Json.Parser
import RealMode.Json.Printer
import RealMode.Report

/-! JSON forms of what an analysis finds, and the text of a report. -/

set_option autoImplicit false

namespace RealMode

open Json (record)

namespace Block

def Exit.name : Exit → String
  | .terminated => "Terminated"
  | .conditional => "Conditional"
  | .fallThrough => "FallThrough"
  | .incomplete => "Incomplete"

def Exit.toJson (exit : Exit) : Json := .ofString exit.name

def Exit.ofJson? : Json → Option Exit :=
  Json.choice? Exit.name [.terminated, .conditional, .fallThrough, .incomplete]

def toJson (block : Block) : Json :=
  record [("image", .ofNat block.image), ("start", .ofNat block.start), ("end", .ofNat block.stop),
    ("exit", block.exit.toJson)]

def layout : Json.Layout :=
  [("image", .required), ("start", .required), ("end", .required), ("exit", .required)]

def ofJson? (value : Json) : Option Block :=
  match value.fields? layout with
  | some [some image, some start, some stop, some exit] => do
      some ⟨← image.id?, ← start.offset?, ← stop.offset?, ← Exit.ofJson? exit⟩
  | _ => none

end Block

namespace Reference

def Kind.name : Kind → String
  | .entry => "UserSpecified"
  | .nearJump => "NearJump"
  | .farJump => "FarJump"
  | .nearCall => "NearCall"
  | .farCall => "FarCall"
  | .conditionalJump => "ConditionalJump"
  | .indexedJump => "NearIndexedJump"

def Kind.toJson (kind : Kind) : Json := .ofString kind.name

def Kind.ofJson? : Json → Option Kind :=
  Json.choice? Kind.name
    [.entry, .nearJump, .farJump, .nearCall, .farCall, .conditionalJump, .indexedJump]

def toJson (reference : Reference) : Json :=
  record [("source", .ofOption Address.toJson reference.source),
    ("target", .ofOption Address.toJson reference.target), ("kind", reference.kind.toJson),
    ("data_location", .ofOption Address.toJson reference.slot)]

def layout : Json.Layout :=
  [("source", .optional), ("target", .optional), ("kind", .required), ("data_location", .defaulted)]

/-- Reads a reference, which must have one of its ends. -/
def ofJson? (value : Json) : Option Reference :=
  match value.fields? layout with
  | some [source, target, some kind, slot] => do
      let reference : Reference :=
        ⟨← Json.optional? Address.ofJson? source, ← Json.optional? Address.ofJson? target,
          ← Kind.ofJson? kind, ← Json.optional? Address.ofJson? slot⟩
      if reference.hasEnd then some reference else none
  | _ => none

end Reference

namespace FlowEdge

def Kind.name : Kind → String
  | .fallThrough => "Fallthrough"
  | .branch => "Branch"
  | .call => "Call"

def Kind.toJson (kind : Kind) : Json := .ofString kind.name

def Kind.ofJson? : Json → Option Kind := Json.choice? Kind.name [.fallThrough, .branch, .call]

def toJson (edge : FlowEdge) : Json :=
  record [("from", edge.source.toJson), ("to", edge.target.toJson), ("kind", edge.kind.toJson),
    ("xref", .ofOption Reference.Kind.toJson edge.cause)]

def layout : Json.Layout :=
  [("from", .required), ("to", .required), ("kind", .required), ("xref", .optional)]

def ofJson? (value : Json) : Option FlowEdge :=
  match value.fields? layout with
  | some [some source, some target, some kind, cause] => do
      some ⟨← Place.ofJson? source, ← Place.ofJson? target, ← Kind.ofJson? kind,
        ← Json.optional? Reference.Kind.ofJson? cause⟩
  | _ => none

end FlowEdge

namespace CallType

def name : CallType → String
  | .near => "Near"
  | .far => "Far"

def toJson (callType : CallType) : Json := .ofString callType.name

def ofJson? : Json → Option CallType := Json.choice? name [.near, .far]

end CallType

namespace Procedure

def toJson (procedure : Procedure) : Json :=
  record [("entry", procedure.entry.toJson), ("address", procedure.address.toJson),
    ("name", .ofString procedure.name), ("call_type", procedure.callType.toJson),
    ("blocks", .ofList Place.toJson procedure.blocks)]

def layout : Json.Layout :=
  [("entry", .required), ("address", .required), ("name", .required), ("call_type", .required),
    ("blocks", .required)]

def ofJson? (value : Json) : Option Procedure :=
  match value.fields? layout with
  | some [some entry, some address, some name, some callType, some blocks] => do
      some ⟨← Place.ofJson? entry, ← Address.ofJson? address, ← name.string?,
        ← CallType.ofJson? callType, ← blocks.list? Place.ofJson?⟩
  | _ => none

end Procedure

namespace DataItem

def toJson (item : DataItem) : Json :=
  record [("address", item.place.toJson), ("location", item.location.toJson),
    ("size", .ofNat item.size), ("owner", .ofOption Place.toJson item.owner)]

def layout : Json.Layout :=
  [("address", .required), ("location", .required), ("size", .required), ("owner", .optional)]

def ofJson? (value : Json) : Option DataItem :=
  match value.fields? layout with
  | some [some place, some location, some size, owner] => do
      some ⟨← Place.ofJson? place, ← Address.ofJson? location, ← size.offset?,
        ← Json.optional? Place.ofJson? owner⟩
  | _ => none

end DataItem

namespace Diagnostic

def Severity.name : Severity → String
  | .message => "Message"
  | .warning => "Warning"
  | .error => "Error"

def Severity.toJson (severity : Severity) : Json := .ofString severity.name

def Severity.ofJson? : Json → Option Severity :=
  Json.choice? Severity.name [.message, .warning, .error]

def Code.toJson (code : Code) : Json := .ofString code.text

def Code.ofJson? : Json → Option Code :=
  Json.choice? Code.text
    [.ranIntoData, .ranIntoCode, .overlappingInstruction, .addressWrapped, .inconsistentCall,
      .dynamicTarget, .unresolvedTarget, .brokenFixup, .invalidInstruction, .outOfImage,
      .segmentOverlap]

def toJson (diagnostic : Diagnostic) : Json :=
  record [("location", .ofOption Address.toJson diagnostic.location),
    ("code", diagnostic.code.toJson), ("category", diagnostic.severity.toJson),
    ("message", .ofString diagnostic.message)]

def layout : Json.Layout :=
  [("location", .optional), ("code", .required), ("category", .required), ("message", .required)]

def ofJson? (value : Json) : Option Diagnostic :=
  match value.fields? layout with
  | some [location, some code, some severity, some message] => do
      some ⟨← Json.optional? Address.ofJson? location, ← Code.ofJson? code,
        ← Severity.ofJson? severity, ← message.string?⟩
  | _ => none

/-- A list of diagnostics as a record of its own. -/
def listToJson (diagnostics : List Diagnostic) : Json :=
  record [("entries", .ofList toJson diagnostics)]

def listLayout : Json.Layout := [("entries", .required)]

def listOfJson? (value : Json) : Option (List Diagnostic) :=
  match value.fields? listLayout with
  | some [some entries] => entries.list? ofJson?
  | _ => none

end Diagnostic

namespace Report

def toJson (report : Report) : Json :=
  record [("blocks", .ofList Block.toJson report.blocks),
    ("procedures", .ofList Procedure.toJson report.procedures),
    ("xrefs", .ofList Reference.toJson report.references),
    ("control_flow", .ofList FlowEdge.toJson report.flow),
    ("data_items", .ofList DataItem.toJson report.items),
    ("diagnostics", .ofList Diagnostic.toJson report.diagnostics)]

def layout : Json.Layout :=
  [("blocks", .required), ("procedures", .required), ("xrefs", .required),
    ("control_flow", .required), ("data_items", .required), ("diagnostics", .required)]

def ofJson? (value : Json) : Option Report :=
  match value.fields? layout with
  | some [some blocks, some procedures, some references, some flow, some items,
      some diagnostics] => do
      some ⟨← blocks.list? Block.ofJson?, ← procedures.list? Procedure.ofJson?,
        ← references.list? Reference.ofJson?, ← flow.list? FlowEdge.ofJson?,
        ← items.list? DataItem.ofJson?, ← diagnostics.list? Diagnostic.ofJson?⟩
  | _ => none

/-- The text of a report. -/
def text (report : Report) : String := report.toJson.pretty

/-- Reads the text of a report. -/
def ofText (text : String) : Except Fault Report :=
  match (Json.parse? text).bind ofJson? with
  | some report => .ok report
  | none => .error .malformed

end Report

end RealMode
