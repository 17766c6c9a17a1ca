import RealMode.Block
import RealMode.Diagnostic
import RealMode.FlowGraph
import RealMode.Procedure

/-! Reports: everything that an analysis has found. -/

set_option autoImplicit false

namespace RealMode

structure Report where
  blocks : List Block
  procedures : List Procedure
  references : List Reference
  flow : List FlowEdge
  items : List DataItem
  diagnostics : List Diagnostic
  deriving DecidableEq, Repr

end RealMode
