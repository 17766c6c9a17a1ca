import RealMode.Json.Parser
import RealMode.Json.Printer
import RealMode.Json.Record
import RealMode.Settings

/-! The text of settings. Whatever a text leaves out has its usual value. -/

set_option autoImplicit false

namespace RealMode.Settings

open Json (record)

def toJson (settings : Settings) : Json :=
  record [
    ("limits", record [("max_worklist_items", .ofNat settings.maxTasks),
      ("max_instructions", .ofNat settings.maxInstructions)]),
    ("heuristics", record [("jump_tables", .bool settings.jumpTables)]),
    ("xrefs", record [("emit_fallthrough", .bool settings.recordFallThrough)]),
    ("layout", record [("check_segment_overlaps", .bool settings.checkSegments)])]

def text (settings : Settings) : String := settings.toJson.pretty

def limitsLayout : Json.Layout :=
  [("max_worklist_items", .defaulted), ("max_instructions", .defaulted)]

/-- Reads the limits on tasks and on instructions. -/
def limits? (value : Json) : Option (Nat × Nat) :=
  match value.fields? limitsLayout with
  | some [tasks, instructions] => do
      some (← Json.orDefault? Json.offset? ({} : Settings).maxTasks tasks,
        ← Json.orDefault? Json.offset? ({} : Settings).maxInstructions instructions)
  | _ => none

/-- Reads a section with one switch, which is usually on. -/
def switch? (name : String) (value : Json) : Option Bool :=
  match value.fields? [(name, .defaulted)] with
  | some [switch] => Json.orDefault? Json.bool? true switch
  | _ => none

def layout : Json.Layout :=
  [("limits", .defaulted), ("heuristics", .defaulted), ("xrefs", .defaulted),
    ("layout", .defaulted)]

def ofJson? (value : Json) : Option Settings :=
  match value.fields? layout with
  | some [limits, heuristics, references, segments] => do
      let usual : Settings := {}
      let (maxTasks, maxInstructions) ←
        Json.orDefault? limits? (usual.maxTasks, usual.maxInstructions) limits
      some ⟨maxTasks, maxInstructions,
        ← Json.orDefault? (switch? "jump_tables") usual.jumpTables heuristics,
        ← Json.orDefault? (switch? "emit_fallthrough") usual.recordFallThrough references,
        ← Json.orDefault? (switch? "check_segment_overlaps") usual.checkSegments segments⟩
  | _ => none

/-- Reads the text of valid settings. -/
def ofText (text : String) : Except Fault Settings :=
  match (Json.parse? text).bind ofJson? with
  | none => .error .malformed
  | some settings => do
      settings.validate
      .ok settings

/-- Reads valid settings from the contents of a file, which are missing if it cannot be read. -/
def ofFile (contents : Option ByteArray) : Except Fault Settings :=
  match contents.bind String.fromUTF8? with
  | none => .error .unreadable
  | some text => ofText text

end RealMode.Settings
