import RealMode.Block.Index
import RealMode.Collection.Queue
import RealMode.Decoder
import RealMode.Diagnostic
import RealMode.FlowGraph
import RealMode.Procedure
import RealMode.Program.Resolve
import RealMode.Settings

/-! The state of an analysis, and how a phase ends. -/

set_option autoImplicit false

namespace RealMode

/-- An address at which analysis starts. -/
structure EntryPoint where
  address : Address
  name : Option String
  callType : CallType
  deriving DecidableEq, Repr

/-- A reference that is to be followed, and perhaps to be recorded after that. -/
structure Task where
  reference : Reference
  isRecorded : Bool
  deriving DecidableEq, Repr

namespace Task

def recorded (reference : Reference) : Task := ⟨reference, true⟩

/-- Tasks are ranked by the kind of their references. -/
def order (left right : Task) : Ordering := left.reference.comparePriority right.reference

end Task

abbrev Agenda := Queue Task Task.order

/-- A table slot that an indexed jump has consumed. -/
structure ConsumedSlot where
  place : Place
  location : Address
  jump : Address
  deriving DecidableEq, Repr

structure Analysis where
  program : Program
  settings : Settings
  entries : List EntryPoint
  references : ReferenceGraph
  blocks : BlockIndex
  procedures : ProcedureTable
  flow : FlowGraph
  slots : List ConsumedSlot
  items : List DataItem
  diagnostics : List Diagnostic
  /-- The number of instructions decoded so far. -/
  instructions : Nat
  /-- The tasks that the search for blocks has still to do. -/
  pending : Agenda

/-- The state in which a phase ends, and the fault that stopped it. -/
structure Outcome where
  state : Analysis
  fault : Option Fault

namespace Outcome

def done (state : Analysis) : Outcome := ⟨state, none⟩

/-- Goes on with the state reached, unless a fault stopped the first part. -/
def andThen (outcome : Outcome) (next : Analysis → Outcome) : Outcome :=
  match outcome.fault with
  | none => next outcome.state
  | some _ => outcome

@[simp] theorem andThen_done (state : Analysis) (next : Analysis → Outcome) :
    (done state).andThen next = next state := rfl

end Outcome

namespace Analysis

/-- An analysis that has not looked at anything yet. -/
def fresh (program : Program) (settings : Settings) : Analysis where
  program := program
  settings := settings
  entries := []
  references := .empty none
  blocks := .empty
  procedures := .empty
  flow := .empty
  slots := []
  items := []
  diagnostics := []
  instructions := 0
  pending := .empty

def report (state : Analysis) (location : Option Address) (code : Diagnostic.Code)
    (message : String) : Analysis :=
  { state with diagnostics := state.diagnostics ++ [.found location code message] }

def enqueue (state : Analysis) (task : Task) : Analysis :=
  { state with pending := state.pending.enqueue task }

/-- Follows a reference later and records it then. -/
def enqueueRecorded (state : Analysis) (reference : Reference) : Analysis :=
  state.enqueue (.recorded reference)

def record (state : Analysis) (reference : Reference) : Outcome :=
  match state.references.enter reference with
  | .ok references => .done { state with references }
  | .error fault references => ⟨{ state with references }, some fault⟩

/-- Marks the bytes of an instruction and counts it. -/
def markInstruction (state : Analysis) (image offset length : Nat) : Analysis :=
  { state with
    program := state.program.modifyImage image (·.painted .code offset length)
    instructions := state.instructions + 1 }

/-- Cuts the block that holds a place, so that a block starts there. -/
def splitAt (state : Analysis) (place : Place) : Outcome :=
  match state.blocks.find? place, state.program.image? place.image with
  | some block, some image =>
      if block.start = place.offset then .done state
      else
        match state.blocks.split block place.offset image with
        | .ok blocks => .done { state with blocks }
        | .error fault blocks => ⟨{ state with blocks }, some fault⟩
  | _, _ => .done state

/-- Enters a block. -/
def addBlock (state : Analysis) (block : Block) : Outcome :=
  match state.blocks.add block with
  | .ok blocks => .done { state with blocks }
  | .error fault blocks => ⟨{ state with blocks }, some fault⟩

end Analysis

end RealMode
