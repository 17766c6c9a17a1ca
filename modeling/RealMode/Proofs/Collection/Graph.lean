import RealMode.Collection.Graph

/-! The edges that a graph keeps at its nodes.

Looking up a node finds the edges that leave it, whatever the order in which they are kept. -/

set_option autoImplicit false

namespace RealMode.Graph

variable {ε ν : Type}

theorem mem_insertEdge {order : Option (ε → ε → Ordering)} {edge other : ε} {edges : List ε} :
    other ∈ insertEdge order edge edges ↔ other = edge ∨ other ∈ edges := by
  cases order with
  | none => simp [insertEdge, or_comm]
  | some order => exact Stable.mem_insert

variable [DecidableEq ν]

variable [Edge ε ν]

/-- An edge is entered at its source among those that leave, and at its target among those that
arrive. Other nodes keep their edges. -/
theorem valueAt_add (graph : Graph ε ν) (edge : ε) (node : ν) :
    Keyed.valueAt .empty (graph.add edge).nodes node =
      ⟨if Edge.source edge = some node then insertEdge graph.order edge (graph.outgoing node)
        else graph.outgoing node,
        if Edge.target edge = some node then insertEdge graph.order edge (graph.incoming node)
        else graph.incoming node⟩ := by
  unfold outgoing incoming add linkTarget linkSource
  cases Edge.source edge with
  | none =>
      cases Edge.target edge with
      | none => simp
      | some reached =>
          by_cases same : reached = node <;> simp [Keyed.valueAt_update, same]
  | some left =>
      cases Edge.target edge with
      | none =>
          by_cases same : left = node <;> simp [Keyed.valueAt_update, same]
      | some reached =>
          by_cases same : left = node <;> by_cases also : reached = node <;>
            simp [Keyed.valueAt_update, same, also]

/-- A new edge joins those that leave its source, and no others. -/
theorem outgoing_add (graph : Graph ε ν) (edge : ε) (node : ν) :
    (graph.add edge).outgoing node =
      if Edge.source edge = some node then insertEdge graph.order edge (graph.outgoing node)
      else graph.outgoing node := by
  rw [outgoing, valueAt_add]

/-- A new edge joins those that reach its target, and no others. -/
theorem incoming_add (graph : Graph ε ν) (edge : ε) (node : ν) :
    (graph.add edge).incoming node =
      if Edge.target edge = some node then insertEdge graph.order edge (graph.incoming node)
      else graph.incoming node := by
  rw [incoming, valueAt_add]

/-- The edges at a node are those of the graph that leave it. -/
def Adjacent (graph : Graph ε ν) : Prop :=
  ∀ node edge, edge ∈ graph.outgoing node ↔ edge ∈ graph.toList ∧ Edge.source edge = some node

theorem Adjacent.empty (order : Option (ε → ε → Ordering)) :
    (Graph.empty order : Graph ε ν).Adjacent := by
  intro node edge
  simp [outgoing, Graph.empty, Keyed.valueAt, Keyed.find?, Links.empty, toList]

theorem Adjacent.add {graph : Graph ε ν} (adjacent : graph.Adjacent) (edge : ε) :
    (graph.add edge).Adjacent := by
  intro node other
  rw [outgoing_add, toList_add, List.mem_append, List.mem_singleton]
  by_cases leaves : Edge.source edge = some node
  · rw [if_pos leaves, mem_insertEdge, adjacent node other]
    constructor
    · rintro (rfl | ⟨earlier, starts⟩)
      · exact ⟨.inr rfl, leaves⟩
      · exact ⟨.inl earlier, starts⟩
    · rintro ⟨earlier | rfl, starts⟩
      · exact .inr ⟨earlier, starts⟩
      · exact .inl rfl
  · rw [if_neg leaves, adjacent node other]
    constructor
    · exact fun found => ⟨.inl found.1, found.2⟩
    · rintro ⟨earlier | rfl, starts⟩
      · exact ⟨earlier, starts⟩
      · exact absurd starts leaves

end RealMode.Graph
