import RealMode.Analysis.Discovery
import RealMode.Analysis.Linking
import RealMode.Analysis.Ownership
import RealMode.Program.Layout
import RealMode.Report

/-! Whole analyses. -/

set_option autoImplicit false

namespace RealMode.Analysis

/-- Reports the segments that overlap. -/
def checkSegments (state : Analysis) : Analysis :=
  { state with diagnostics := state.diagnostics ++ state.program.segmentOverlaps }

/-- All phases in a row: blocks, control flow, procedures and, if wanted, the layout. -/
def run (decoder : Decoder) (state : Analysis) (entries : List EntryPoint) : Outcome :=
  (findBlocks decoder state entries).andThen fun state =>
    state.linkBlocks.andThen fun state =>
      state.findProcedures.andThen fun state =>
        .done (if state.settings.checkSegments then state.checkSegments else state)

/-- What has been found so far. -/
def toReport (state : Analysis) : Report where
  blocks := state.blocks.blocks
  procedures := state.procedures.procedures
  references := state.references.toList
  flow := state.flow.edges
  items := state.items
  diagnostics := state.diagnostics

/-- The references recorded behind the first `count` ones. -/
def recordedSince (state : Analysis) (count : Nat) : List Reference :=
  state.references.toList.drop count

end RealMode.Analysis
