import RealMode.Analysis.State

/-! Procedures, the blocks that belong to them, and their data. -/

set_option autoImplicit false

namespace RealMode.Analysis

/-- The name of a procedure: that of a public symbol at its entry, or one made from its
address. -/
def procedureName (state : Analysis) (address : Address) (entry : Place) : String :=
  match state.program.publicAt? entry with
  | some symbol => symbol.name
  | none =>
      "sub_" ++ state.program.label address.referent ++ "_" ++
        Numeral.hex 4 address.offset.toNat

/-- Enters a procedure whose blocks are not known yet. -/
def addProcedure (state : Analysis) (entry : Place) (address : Address) (name : String)
    (callType : CallType) : Outcome :=
  match state.procedures.add ⟨entry, address, name, callType, []⟩ with
  | .ok procedures => .done { state with procedures }
  | .error fault procedures => ⟨{ state with procedures }, some fault⟩

/-- Makes an entry point a procedure, unless its place is one already. -/
def declareEntry (state : Analysis) (entry : EntryPoint) : Outcome :=
  match state.program.resolve entry.address with
  | none => .done state
  | some place =>
      if state.procedures.contains place then .done state
      else
        state.addProcedure place entry.address
          (entry.name.getD (state.procedureName entry.address place)) entry.callType

def inconsistencyMessage (procedure : Procedure) (callType : CallType) : String :=
  procedure.name ++ " is called " ++ callType.text ++ " but was first seen as " ++
    procedure.callType.text

/-- Makes the place that a call reaches a procedure, or compares the call with the one there. -/
def declareCallee (state : Analysis) (reference : Reference) (target : Address) (entry : Place)
    (callType : CallType) : Outcome :=
  match state.procedures.find? entry with
  | none => state.addProcedure entry target (state.procedureName target entry) callType
  | some procedure =>
      if procedure.callType = callType then .done state
      else
        .done (state.report reference.source .inconsistentCall
          (inconsistencyMessage procedure callType))

/-- Enters a call whose target resolves. -/
def declareCall (state : Analysis) (reference : Reference) : Outcome :=
  match reference.target, CallType.ofKind? reference.kind with
  | some target, some callType =>
      match state.program.resolve target with
      | none => .done state
      | some entry =>
          (state.declareCallee reference target entry callType).andThen fun state =>
            match state.procedures.addCall reference with
            | .ok procedures => .done { state with procedures }
            | .error fault procedures => ⟨{ state with procedures }, some fault⟩
  | _, _ => .done state

/-- Does a step for each element of a list until one is stopped by a fault. -/
def forEach {α : Type} (step : Analysis → α → Outcome) : List α → Analysis → Outcome
  | [], state => .done state
  | item :: rest, state =>
      let outcome := step state item
      match outcome.fault with
      | none => forEach step rest outcome.state
      | some _ => outcome

/-- The blocks to which control passes from a block without leaving its procedure. -/
def inside (flow : FlowGraph) (entries : List Place) (block : Place) : List Place :=
  ((flow.outgoing block).filter fun edge => edge.kind ≠ .call && !entries.contains edge.target).map
    FlowEdge.target

/-- The places among `reached` that were not seen before, each once. -/
def unseen (seen reached : List Place) : List Place := FlowGraph.distinctFrom seen reached

/-- Everything that can be reached from the places in `frontier`, together with what has been
seen. Each round takes one place from the frontier. -/
def reach (next : Place → List Place) :
    (rounds : Nat) → (frontier seen : List Place) → List Place
  | 0, _, seen => seen
  | _ + 1, [], seen => seen
  | rounds + 1, place :: frontier, seen =>
      let fresh := unseen seen (next place)
      reach next rounds (frontier ++ fresh) (seen ++ fresh)

/-- The blocks of the procedure at an entry, in ascending order. -/
def blocksOf (state : Analysis) (entry : Place) : List Place :=
  match state.blocks.startingAt? entry with
  | none => []
  | some _ =>
      let next := inside state.flow state.procedures.entries
      (reach next (state.flow.edges.length + 1) [entry] [entry]).mergeSort
        fun left right => !decide (right < left)

/-- Gives each procedure its blocks. -/
def assignBlocks (state : Analysis) : Analysis :=
  { state with
    procedures := state.procedures.mapBlocks fun procedure => state.blocksOf procedure.entry }

/-- The procedure to which the jump through a slot belongs. -/
def slotOwner? (state : Analysis) (slot : ConsumedSlot) : Option Place := do
  let jump ← state.program.resolve slot.jump
  let block ← state.blocks.find? jump
  let procedure ← state.procedures.containing? block.first
  some procedure.entry

/-- Makes each consumed slot a data item. -/
def assignItems (state : Analysis) : Analysis :=
  { state with
    items := state.slots.map fun slot => ⟨slot.place, slot.location, 2, state.slotOwner? slot⟩ }

/-- Finds the procedures at entry points and call targets, with their blocks and data. -/
def findProcedures (state : Analysis) : Outcome :=
  (forEach declareEntry state.entries state).andThen fun state =>
    (forEach declareCall (state.references.toList.filter (·.kind.isCall)) state).andThen fun state =>
      .done state.assignBlocks.assignItems

end RealMode.Analysis
