import RealMode.FlowGraph
import RealMode.Proofs.Collection.Graph

/-! What entering edges does to the control flow between blocks. -/

set_option autoImplicit false

namespace RealMode.FlowGraph

@[simp] theorem edges_empty : empty.edges = [] := rfl

@[simp] theorem edges_enter (flow : FlowGraph) (edge : FlowEdge) :
    (flow.enter edge).edges = flow.edges ++ [edge] :=
  Graph.toList_add ..

theorem contains_iff {flow : FlowGraph} {edge : FlowEdge} :
    flow.contains edge = true ↔ edge ∈ flow.edges := by
  rw [contains, List.contains_iff_mem, flow.inStep, edges]

/-- An edge that is there already changes nothing. -/
theorem add_of_mem {flow : FlowGraph} {edge : FlowEdge} (known : edge ∈ flow.edges) :
    flow.add edge = (flow, false) :=
  if_pos (contains_iff.mpr known)

theorem add_of_not_mem {flow : FlowGraph} {edge : FlowEdge} (new : edge ∉ flow.edges) :
    flow.add edge = (flow.enter edge, true) :=
  if_neg (mt contains_iff.mp new)

theorem mem_edges_add {flow : FlowGraph} {edge other : FlowEdge} :
    other ∈ (flow.add edge).1.edges ↔ other ∈ flow.edges ∨ other = edge := by
  by_cases known : edge ∈ flow.edges
  · rw [add_of_mem known]
    refine ⟨.inl, ?_⟩
    rintro (earlier | rfl)
    · exact earlier
    · exact known
  · simp [add_of_not_mem known]

theorem addAll_cons (flow : FlowGraph) (edge : FlowEdge) (rest : List FlowEdge) :
    flow.addAll (edge :: rest) = (flow.add edge).1.addAll rest := rfl

theorem mem_edges_addAll {flow : FlowGraph} {edges : List FlowEdge} {other : FlowEdge} :
    other ∈ (flow.addAll edges).edges ↔ other ∈ flow.edges ∨ other ∈ edges := by
  induction edges generalizing flow with
  | nil => simp [addAll]
  | cons edge rest ih => rw [addAll_cons, ih, mem_edges_add, List.mem_cons, or_assoc]

/-- What every new edge keeps is kept by a row of edges. -/
theorem addAll_keeps {holds : FlowGraph → Prop}
    (step : ∀ flow edge, edge ∉ flow.edges → holds flow → holds (flow.enter edge))
    {flow : FlowGraph} (start : holds flow) (edges : List FlowEdge) : holds (flow.addAll edges) := by
  induction edges generalizing flow with
  | nil => exact start
  | cons edge rest ih =>
      rw [addAll_cons]
      apply ih
      by_cases known : edge ∈ flow.edges
      · rwa [add_of_mem known]
      · rw [add_of_not_mem known]
        exact step flow edge known start

theorem nodup_edges_addAll {flow : FlowGraph} (nodup : flow.edges.Nodup) (edges : List FlowEdge) :
    (flow.addAll edges).edges.Nodup := by
  have step (flow : FlowGraph) (edge : FlowEdge) (new : edge ∉ flow.edges)
      (earlier : flow.edges.Nodup) : (flow.enter edge).edges.Nodup := by
    rw [edges_enter]
    refine List.nodup_append.mpr ⟨earlier, by simp, fun other member last again same => new ?_⟩
    rwa [same, List.mem_singleton.mp again] at member
  exact addAll_keeps step nodup edges

theorem addAll_append (flow : FlowGraph) (edges others : List FlowEdge) :
    flow.addAll (edges ++ others) = (flow.addAll edges).addAll others :=
  List.foldl_append

/-- Edges that are there already change nothing. -/
theorem addAll_of_subset {flow : FlowGraph} {edges : List FlowEdge} (known : edges ⊆ flow.edges) :
    flow.addAll edges = flow := by
  induction edges with
  | nil => rfl
  | cons edge rest ih =>
      obtain ⟨first, later⟩ := List.cons_subset.mp known
      rw [addAll_cons, add_of_mem first]
      exact ih later

/-- The edges that leave a block can be looked up. -/
def Adjacent (flow : FlowGraph) : Prop := flow.graph.Adjacent

theorem Adjacent.empty : FlowGraph.empty.Adjacent := Graph.Adjacent.empty none

theorem Adjacent.addAll {flow : FlowGraph} (adjacent : flow.Adjacent) (edges : List FlowEdge) :
    (flow.addAll edges).Adjacent :=
  addAll_keeps (fun _ edge _ earlier => Graph.Adjacent.add earlier edge) adjacent edges

theorem Adjacent.mem_outgoing_iff {flow : FlowGraph} (adjacent : flow.Adjacent) {edge : FlowEdge}
    {block : Place} : edge ∈ flow.outgoing block ↔ edge ∈ flow.edges ∧ edge.source = block := by
  refine (adjacent block edge).trans (and_congr_right fun _ => ?_)
  exact Option.some_inj

theorem mem_distinctFrom {seen places : List Place} {place : Place} :
    place ∈ distinctFrom seen places ↔ place ∈ places ∧ place ∉ seen := by
  induction places generalizing seen with
  | nil => simp [distinctFrom]
  | cons first rest ih =>
      rw [distinctFrom]
      split
      · rename_i known
        rw [ih, List.mem_cons]
        refine and_congr_left fun new => (or_iff_right ?_).symm
        rintro rfl
        exact new known
      · rename_i new
        rw [List.mem_cons, List.mem_cons, ih, List.mem_cons]
        by_cases same : place = first
        · subst same
          simp [new]
        · simp [same]

theorem nodup_distinctFrom (seen places : List Place) : (distinctFrom seen places).Nodup := by
  induction places generalizing seen with
  | nil => exact List.nodup_nil
  | cons first rest ih =>
      rw [distinctFrom]
      split
      · exact ih seen
      · refine List.nodup_cons.mpr ⟨fun again => ?_, ih _⟩
        exact (mem_distinctFrom.mp again).2 List.mem_cons_self

/-- Control passes from one block to another along an edge of any kind. -/
def Follows (flow : FlowGraph) (source target : Place) : Prop :=
  ∃ edge ∈ flow.edges, edge.source = source ∧ edge.target = target

end RealMode.FlowGraph
