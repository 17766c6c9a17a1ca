import Mathlib.Data.List.Induction
import RealMode.Proofs.Collection.Graph
import RealMode.Proofs.Collection.Stable

/-! Graphs against plain lists of edges.

What a graph lists at a node can be read off the list of all edges since it was last cleared: the
edges with that end, in the order of their arrival or stably sorted. -/

set_option autoImplicit false

namespace RealMode.Graph

variable {ε ν : Type}

inductive Change (ε : Type) where
  | add (edge : ε)
  | clear
  deriving Repr

/-- All edges that a change leaves, in the order of their arrival. -/
def Change.leave (edges : List ε) : Change ε → List ε
  | .add edge => edges ++ [edge]
  | .clear => []

def edgesAfter (changes : List (Change ε)) : List ε := changes.foldl Change.leave []

theorem edgesAfter_concat (changes : List (Change ε)) (change : Change ε) :
    edgesAfter (changes ++ [change]) = change.leave (edgesAfter changes) := by
  simp [edgesAfter]

/-- Enters edges one after the other. -/
def arrange (order : Option (ε → ε → Ordering)) (edges : List ε) : List ε :=
  edges.foldl (fun listed edge => insertEdge order edge listed) []

theorem arrange_concat (order : Option (ε → ε → Ordering)) (edges : List ε) (edge : ε) :
    arrange order (edges ++ [edge]) = insertEdge order edge (arrange order edges) := by
  simp [arrange]

theorem arrange_filter_concat (order : Option (ε → ε → Ordering)) (test : ε → Bool) (edges : List ε)
    (edge : ε) :
    arrange order ((edges ++ [edge]).filter test) =
      if test edge = true then insertEdge order edge (arrange order (edges.filter test))
      else arrange order (edges.filter test) := by
  split
  · rename_i passes
    rw [List.filter_append, List.filter_cons_of_pos passes, List.filter_nil, arrange_concat]
  · rename_i fails
    simp [fails]

theorem arrange_none (edges : List ε) : arrange none edges = edges := by
  induction edges using List.reverseRecOn with
  | nil => rfl
  | append_singleton edges edge ih => rw [arrange_concat, ih, insertEdge]

theorem arrange_some (order : ε → ε → Ordering) [Std.TransCmp order] (edges : List ε) :
    arrange (some order) edges = Stable.sort order edges := by
  induction edges using List.reverseRecOn with
  | nil => exact (Stable.sort_nil order).symm
  | append_singleton edges edge ih => rw [arrange_concat, ih, insertEdge, Stable.sort_concat]

theorem arrange_perm (order : Option (ε → ε → Ordering)) (edges : List ε) :
    (arrange order edges).Perm edges := by
  induction edges using List.reverseRecOn with
  | nil => exact .refl _
  | append_singleton edges edge ih =>
      rw [arrange_concat]
      refine .trans ?_ (ih.append_right [edge])
      cases order with
      | none => exact .refl _
      | some order =>
          exact (Stable.insert_perm order edge _).trans (List.perm_append_singleton edge _).symm

section Nodes

variable [DecidableEq ν]

theorem knows_eq (graph : Graph ε ν) (node : ν) :
    graph.knows node = true ↔ node ∈ graph.knownNodes :=
  Keyed.isSome_find?_iff

variable [Edge ε ν]

/-- An edge brings its ends, as far as they are not known. -/
theorem knownNodes_add (graph : Graph ε ν) (edge : ε) :
    (graph.add edge).knownNodes = (Edge.target edge).toList.foldl Keyed.enter
      ((Edge.source edge).toList.foldl Keyed.enter graph.knownNodes) := by
  unfold knownNodes add linkTarget linkSource
  cases Edge.source edge <;> cases Edge.target edge <;> simp [Keyed.keys_update]

theorem mem_knownNodes_add {graph : Graph ε ν} {edge : ε} {node : ν} :
    node ∈ (graph.add edge).knownNodes ↔
      node ∈ graph.knownNodes ∨ Edge.source edge = some node ∨ Edge.target edge = some node := by
  rw [knownNodes_add]
  cases Edge.source edge <;> cases Edge.target edge <;> simp [Keyed.enter] <;> grind

theorem nodup_knownNodes_add {graph : Graph ε ν} (once : graph.knownNodes.Nodup) (edge : ε) :
    (graph.add edge).knownNodes.Nodup := by
  rw [knownNodes_add]
  cases Edge.source edge <;> cases Edge.target edge <;> simp [Keyed.enter] <;> grind

end Nodes

section Changes

variable [DecidableEq ν] [Edge ε ν]

def perform (graph : Graph ε ν) : Change ε → Graph ε ν
  | .add edge => graph.add edge
  | .clear => graph.clear

/-- The graph behind a row of changes. -/
def after (order : Option (ε → ε → Ordering)) (changes : List (Change ε)) : Graph ε ν :=
  changes.foldl perform (empty order)

theorem after_concat (order : Option (ε → ε → Ordering)) (changes : List (Change ε))
    (change : Change ε) :
    (after order (changes ++ [change]) : Graph ε ν) = (after order changes).perform change := by
  simp [after]

/-- Those of `edges` that leave a node. -/
def leaving (edges : List ε) (node : ν) : List ε := edges.filter fun edge => Edge.source edge = some node

/-- Those of `edges` that reach a node. -/
def reaching (edges : List ε) (node : ν) : List ε := edges.filter fun edge => Edge.target edge = some node

/-- Everything that a graph shows can be read off a plain list. -/
structure Shows (graph : Graph ε ν) (order : Option (ε → ε → Ordering)) (edges : List ε) : Prop where
  order_eq : graph.order = order
  arrivals : graph.toList = edges
  outgoing : ∀ node, graph.outgoing node = arrange order (leaving edges node)
  incoming : ∀ node, graph.incoming node = arrange order (reaching edges node)
  known : ∀ node, node ∈ graph.knownNodes ↔
    ∃ edge ∈ edges, Edge.source edge = some node ∨ Edge.target edge = some node
  once : graph.knownNodes.Nodup

theorem Shows.empty (order : Option (ε → ε → Ordering)) :
    (Graph.empty order : Graph ε ν).Shows order [] where
  order_eq := rfl
  arrivals := rfl
  outgoing _ := rfl
  incoming _ := rfl
  known _ := by simp [knownNodes, Graph.empty]
  once := .nil

theorem Shows.add {graph : Graph ε ν} {order : Option (ε → ε → Ordering)} {edges : List ε}
    (shows : graph.Shows order edges) (edge : ε) : (graph.add edge).Shows order (edges ++ [edge]) where
  order_eq := shows.order_eq
  arrivals := by rw [toList_add, shows.arrivals]
  outgoing node := by
    simp only [outgoing_add, shows.outgoing, shows.order_eq, leaving, arrange_filter_concat,
      decide_eq_true_eq]
  incoming node := by
    simp only [incoming_add, shows.incoming, shows.order_eq, reaching, arrange_filter_concat,
      decide_eq_true_eq]
  known node := by
    rw [mem_knownNodes_add, shows.known node]
    simp only [List.mem_append, List.mem_singleton, or_and_right, exists_or, exists_eq_left]
  once := nodup_knownNodes_add shows.once edge

theorem shows_after (order : Option (ε → ε → Ordering)) (changes : List (Change ε)) :
    (after order changes : Graph ε ν).Shows order (edgesAfter changes) := by
  induction changes using List.reverseRecOn with
  | nil => exact .empty order
  | append_singleton changes change ih =>
      rw [after_concat, edgesAfter_concat]
      cases change with
      | add edge => exact ih.add edge
      | clear =>
          rw [perform, clear, ih.order_eq]
          exact .empty order

end Changes

end RealMode.Graph
