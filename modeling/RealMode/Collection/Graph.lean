import RealMode.Collection.Keyed
import RealMode.Collection.Stable
import RealMode.Text.Numeral

/-! Directed graphs whose edges may lack an end.

Edges are numbered in the order of their arrival. Each node keeps the edges that leave it and
those that reach it, in the order of arrival or by an order on edges. -/

set_option autoImplicit false

namespace RealMode

/-- Edges of type `ε` between nodes of type `ν`. -/
class Edge (ε : Type) (ν : outParam Type) where
  source : ε → Option ν
  target : ε → Option ν

namespace Graph

/-- The edges at one node. -/
structure Links (ε : Type) where
  outgoing : List ε
  incoming : List ε

variable {ε ν : Type}

def Links.empty : Links ε := ⟨[], []⟩

end Graph

structure Graph (ε ν : Type) where
  order : Option (ε → ε → Ordering)
  edges : Array ε
  nodes : List (ν × Graph.Links ε)

namespace Graph

variable {ε ν : Type}

/-- The graph without edges, whose adjacent edges will keep the given order. -/
def empty (order : Option (ε → ε → Ordering)) : Graph ε ν := ⟨order, #[], []⟩

/-- Enters an edge among those at a node. -/
def insertEdge (order : Option (ε → ε → Ordering)) (edge : ε) (edges : List ε) : List ε :=
  match order with
  | none => edges ++ [edge]
  | some order => Stable.insert order edge edges

/-- All edges in the order of their arrival. -/
def toList (graph : Graph ε ν) : List ε := graph.edges.toList

def edge? (graph : Graph ε ν) (index : Nat) : Option ε := graph.edges[index]?

/-- The ends of all edges, each once. -/
def knownNodes (graph : Graph ε ν) : List ν := graph.nodes.map Prod.fst

def size (graph : Graph ε ν) : Nat := graph.edges.size

/-- Forgets the edges and keeps the order. -/
def clear (graph : Graph ε ν) : Graph ε ν := empty graph.order

/-- The wording of a graph, by its numbers of edges and nodes and by whether it has an order. -/
def wording (edges nodes : Nat) (sorted : Bool) : String :=
  "DirectedGraph \x7b edges: " ++ Numeral.decimal edges ++ ", nodes: " ++ Numeral.decimal nodes ++
    ", sorted: " ++ (if sorted then "true" else "false") ++ " \x7d"

def text (graph : Graph ε ν) : String := wording graph.size graph.nodes.length graph.order.isSome

@[simp] theorem toList_empty (order : Option (ε → ε → Ordering)) :
    (empty order : Graph ε ν).toList = [] := rfl

variable [DecidableEq ν]

/-- The edges that leave a node. -/
def outgoing (graph : Graph ε ν) (node : ν) : List ε :=
  (Keyed.valueAt .empty graph.nodes node).outgoing

/-- The edges that reach a node. -/
def incoming (graph : Graph ε ν) (node : ν) : List ε :=
  (Keyed.valueAt .empty graph.nodes node).incoming

def knows (graph : Graph ε ν) (node : ν) : Bool := (Keyed.find? node graph.nodes).isSome

variable [Edge ε ν]

def linkSource (order : Option (ε → ε → Ordering)) (edge : ε) (nodes : List (ν × Links ε)) :
    List (ν × Links ε) :=
  match Edge.source edge with
  | none => nodes
  | some node =>
      Keyed.update .empty node
        (fun links => { links with outgoing := insertEdge order edge links.outgoing }) nodes

def linkTarget (order : Option (ε → ε → Ordering)) (edge : ε) (nodes : List (ν × Links ε)) :
    List (ν × Links ε) :=
  match Edge.target edge with
  | none => nodes
  | some node =>
      Keyed.update .empty node
        (fun links => { links with incoming := insertEdge order edge links.incoming }) nodes

def add (graph : Graph ε ν) (edge : ε) : Graph ε ν :=
  ⟨graph.order, graph.edges.push edge,
    linkTarget graph.order edge (linkSource graph.order edge graph.nodes)⟩

@[simp] theorem toList_add (graph : Graph ε ν) (edge : ε) :
    (graph.add edge).toList = graph.toList ++ [edge] := by
  simp [add, toList]

end Graph

end RealMode
