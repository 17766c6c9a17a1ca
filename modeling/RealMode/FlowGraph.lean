import RealMode.Collection.Graph
import RealMode.Reference

/-! Control flow between blocks. -/

set_option autoImplicit false

namespace RealMode

namespace FlowEdge

inductive Kind where
  | fallThrough
  | branch
  | call
  deriving DecidableEq, Repr

def Kind.text : Kind → String
  | .fallThrough => "fallthrough"
  | .branch => "branch"
  | .call => "call"

end FlowEdge

/-- Control passes from the block at `source` to the block at `target`, because of a
reference of kind `cause` or by running on. -/
structure FlowEdge where
  source : Place
  target : Place
  kind : FlowEdge.Kind
  cause : Option Reference.Kind
  deriving DecidableEq, Repr

namespace FlowEdge

def ofFallThrough (source target : Place) : FlowEdge := ⟨source, target, .fallThrough, none⟩

def ofReference (source target : Place) (kind : Reference.Kind) : FlowEdge :=
  ⟨source, target, if kind.isCall then .call else .branch, some kind⟩

def text (edge : FlowEdge) : String :=
  edge.source.text ++ " -" ++ edge.kind.text ++ "-> " ++ edge.target.text

instance : Edge FlowEdge Place where
  source edge := some edge.source
  target edge := some edge.target

end FlowEdge

/-- A graph in which no edge occurs twice, with the set of its edges beside it. -/
structure FlowGraph where
  graph : Graph FlowEdge Place
  seen : List FlowEdge
  inStep : ∀ edge, edge ∈ seen ↔ edge ∈ graph.toList

namespace FlowGraph

def empty : FlowGraph := ⟨.empty none, [], fun _ => .rfl⟩

def edges (flow : FlowGraph) : List FlowEdge := flow.graph.toList

def contains (flow : FlowGraph) (edge : FlowEdge) : Bool := flow.seen.contains edge

/-- Enters an edge in the graph and in the set. -/
def enter (flow : FlowGraph) (edge : FlowEdge) : FlowGraph where
  graph := flow.graph.add edge
  seen := edge :: flow.seen
  inStep other := by
    rw [Graph.toList_add, List.mem_cons, List.mem_append, List.mem_singleton, flow.inStep, or_comm]

/-- Enters an edge unless it is there, and tells whether it was new. -/
def add (flow : FlowGraph) (edge : FlowEdge) : FlowGraph × Bool :=
  if flow.contains edge then (flow, false) else (flow.enter edge, true)

/-- Enters edges that may be there already. -/
def addAll (flow : FlowGraph) (edges : List FlowEdge) : FlowGraph :=
  edges.foldl (fun flow edge => (flow.add edge).1) flow

/-- Forgets the edges. -/
def clear (flow : FlowGraph) : FlowGraph := ⟨flow.graph.clear, [], fun _ => .rfl⟩

def outgoing (flow : FlowGraph) (block : Place) : List FlowEdge := flow.graph.outgoing block
def incoming (flow : FlowGraph) (block : Place) : List FlowEdge := flow.graph.incoming block

/-- A list without the later occurrences of its elements, behind those already seen. -/
def distinctFrom (seen : List Place) : List Place → List Place
  | [] => []
  | place :: rest =>
      if place ∈ seen then distinctFrom seen rest
      else place :: distinctFrom (place :: seen) rest

/-- The blocks that edges from a block lead to, each once. -/
def successors (flow : FlowGraph) (block : Place) : List Place :=
  distinctFrom [] ((flow.outgoing block).map FlowEdge.target)

/-- The blocks from which edges lead to a block, each once. -/
def predecessors (flow : FlowGraph) (block : Place) : List Place :=
  distinctFrom [] ((flow.incoming block).map FlowEdge.source)

/-- The number of blocks at which an edge starts or ends. -/
def blockCount (flow : FlowGraph) : Nat := flow.graph.nodes.length

end FlowGraph

end RealMode
