import RealMode.Analysis.State

/-! Control flow between the blocks that have been found. -/

set_option autoImplicit false

namespace RealMode.Analysis

/-- The edge that a reference stands for: from the block that holds its source to the block
that starts at its target. -/
def referenceEdge (state : Analysis) (reference : Reference) : Except Fault (Option FlowEdge) :=
  match reference.source.bind state.program.resolve, reference.target with
  | some source, some target =>
      match state.blocks.find? source with
      | none => .error (.sourceWithoutBlock reference)
      | some block =>
          match (state.program.resolve target).bind state.blocks.startingAt? with
          | none => .ok none
          | some reached => .ok (some (.ofReference block.first reached.first reference.kind))
  | _, _ => .ok none

/-- Enters the edges of references, up to the first that has none for a fault. -/
def linkReferences (state : Analysis) : List Reference → Outcome
  | [] => .done state
  | reference :: rest =>
      match state.referenceEdge reference with
      | .error fault => ⟨state, some fault⟩
      | .ok edge => linkReferences { state with flow := state.flow.addAll edge.toList } rest

/-- Whether control can run from the end of a block into the next one without a reference
that says so. -/
def runsOn (state : Analysis) (block : Block) : Bool :=
  match block.exit with
  | .fallThrough => true
  | .conditional => !state.settings.recordFallThrough
  | .terminated | .incomplete => false

/-- The edge from a block to the one just behind it. -/
def fallThroughEdge? (state : Analysis) (block : Block) : Option FlowEdge :=
  if state.runsOn block then
    (state.blocks.startingAt? block.behind).map fun next => .ofFallThrough block.first next.first
  else
    none

def linkNeighbours (state : Analysis) : Analysis :=
  { state with flow := state.flow.addAll (state.blocks.blocks.filterMap state.fallThroughEdge?) }

/-- Enters the control flow between all blocks. -/
def linkBlocks (state : Analysis) : Outcome :=
  (linkReferences state state.references.toList).andThen fun state => .done state.linkNeighbours

end RealMode.Analysis
