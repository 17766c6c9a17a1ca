import RealMode.Proofs.Collection.Adjacency
import RealMode.Proofs.FlowGraph

/-! Control flow against the plain list of the edges that were entered.

Repeated edges leave no trace: a graph has the first occurrences of the edges entered since it was
last cleared. The neighbours of a block can be read off these in either direction, although each
direction is kept in lists of its own. -/

set_option autoImplicit false

namespace RealMode.FlowGraph

/-- The last element of a list adds to the first occurrences unless it is among them. -/
theorem eraseDups_concat {α : Type} [DecidableEq α] (earlier : List α) (last : α) :
    (earlier ++ [last]).eraseDups =
      if last ∈ earlier.eraseDups then earlier.eraseDups else earlier.eraseDups ++ [last] := by
  rw [List.eraseDups_append]
  by_cases known : last ∈ earlier <;> simp [known, List.removeAll, List.eraseDups_cons]

theorem distinctFrom_eq_eraseDups (seen places : List Place) :
    distinctFrom seen places = (places.filter (· ∉ seen)).eraseDups := by
  induction places generalizing seen with
  | nil => rfl
  | cons first rest ih =>
      rw [distinctFrom]
      split
      · rename_i known
        rw [ih, List.filter_cons_of_neg (by simpa using known)]
      · rename_i new
        rw [ih, List.filter_cons_of_pos (by simpa using new), List.eraseDups_cons, List.filter_filter]
        -- One side has seen `first` from here on, the other drops it from the rest.
        congr 2
        refine List.filter_congr fun place _ => ?_
        rw [Bool.eq_iff_iff]
        simp [not_or]

theorem distinctFrom_nil (places : List Place) : distinctFrom [] places = places.eraseDups := by
  rw [distinctFrom_eq_eraseDups, List.filter_eq_self.mpr (by simp)]

section Shown

variable {flow : FlowGraph} {edges : List FlowEdge}

theorem outgoing_of_shows (shows : flow.graph.Shows none edges) (block : Place) :
    flow.outgoing block = flow.edges.filter fun edge => edge.source = block := by
  rw [outgoing, shows.outgoing, Graph.arrange_none, Graph.leaving, FlowGraph.edges, shows.arrivals]
  simp only [Edge.source, Option.some_inj]

theorem incoming_of_shows (shows : flow.graph.Shows none edges) (block : Place) :
    flow.incoming block = flow.edges.filter fun edge => edge.target = block := by
  rw [incoming, shows.incoming, Graph.arrange_none, Graph.reaching, FlowGraph.edges, shows.arrivals]
  simp only [Edge.target, Option.some_inj]

theorem successors_of_shows (shows : flow.graph.Shows none edges) (block : Place) :
    flow.successors block =
      ((flow.edges.filter fun edge => edge.source = block).map FlowEdge.target).eraseDups := by
  rw [successors, outgoing_of_shows shows, distinctFrom_nil]

theorem predecessors_of_shows (shows : flow.graph.Shows none edges) (block : Place) :
    flow.predecessors block =
      ((flow.edges.filter fun edge => edge.target = block).map FlowEdge.source).eraseDups := by
  rw [predecessors, incoming_of_shows shows, distinctFrom_nil]

theorem mem_successors_iff_follows (shows : flow.graph.Shows none edges) {block next : Place} :
    next ∈ flow.successors block ↔ flow.Follows block next := by
  rw [successors_of_shows shows, List.mem_eraseDups]
  simp [Follows, and_assoc]

theorem mem_predecessors_iff_follows (shows : flow.graph.Shows none edges) {block next : Place} :
    block ∈ flow.predecessors next ↔ flow.Follows block next := by
  rw [predecessors_of_shows shows, List.mem_eraseDups]
  simp [Follows, and_assoc, and_comm]

end Shown

def perform (flow : FlowGraph) : Graph.Change FlowEdge → FlowGraph
  | .add edge => (flow.add edge).1
  | .clear => flow.clear

/-- The graph behind a row of changes. -/
def after (changes : List (Graph.Change FlowEdge)) : FlowGraph := changes.foldl perform empty

theorem after_concat (changes : List (Graph.Change FlowEdge)) (change : Graph.Change FlowEdge) :
    after (changes ++ [change]) = (after changes).perform change := by
  simp [after]

theorem shows_perform {flow : FlowGraph} {entered : List FlowEdge}
    (shows : flow.graph.Shows none entered.eraseDups) (change : Graph.Change FlowEdge) :
    (flow.perform change).graph.Shows none (change.leave entered).eraseDups := by
  cases change with
  | add edge =>
      have listed : flow.edges = entered.eraseDups := shows.arrivals
      rw [perform, Graph.Change.leave, eraseDups_concat, ← listed]
      -- A repeated edge is entered neither here nor among the first occurrences.
      by_cases known : edge ∈ flow.edges
      · rwa [add_of_mem known, if_pos known, listed]
      · rw [add_of_not_mem known, if_neg known, listed]
        exact shows.add edge
  | clear =>
      have cleared : flow.clear.graph = .empty none := congrArg Graph.empty shows.order_eq
      rw [perform, cleared]
      exact .empty none

theorem shows_after (changes : List (Graph.Change FlowEdge)) :
    (after changes).graph.Shows none (Graph.edgesAfter changes).eraseDups := by
  induction changes using List.reverseRecOn with
  | nil => exact .empty none
  | append_singleton changes change ih =>
      rw [after_concat, Graph.edgesAfter_concat]
      exact shows_perform ih change

/-- After any changes the edges are the first occurrences of those entered since the graph was last
cleared. An edge counts as new if it is not among them, and leaves everything as it is otherwise. The
blocks that follow a block are listed once, in the order of the first edge to each, as are those before
it, and the two directions agree. -/
theorem edges_enter_once (changes : List (Graph.Change FlowEdge)) :
    let flow := after changes
    flow.edges = (Graph.edgesAfter changes).eraseDups ∧
    (∀ edge, ((flow.add edge).2 = true ↔ edge ∉ flow.edges) ∧
      (edge ∈ flow.edges → (flow.add edge).1 = flow)) ∧
    (∀ block,
      flow.successors block =
        ((flow.edges.filter fun edge => edge.source = block).map FlowEdge.target).eraseDups ∧
      flow.predecessors block =
        ((flow.edges.filter fun edge => edge.target = block).map FlowEdge.source).eraseDups) ∧
    ∀ block next, next ∈ flow.successors block ↔ block ∈ flow.predecessors next := by
  intro flow
  have shows : flow.graph.Shows none (Graph.edgesAfter changes).eraseDups := shows_after changes
  refine ⟨shows.arrivals, fun edge => ⟨?_, fun known => by rw [add_of_mem known]⟩,
    fun block => ⟨successors_of_shows shows block, predecessors_of_shows shows block⟩,
    fun block next => ?_⟩
  · by_cases known : edge ∈ flow.edges
    · simp [add_of_mem known, known]
    · simp [add_of_not_mem known, known]
  · rw [mem_successors_iff_follows shows, mem_predecessors_iff_follows shows]

/-- Behind an edge that is forgotten, a jump and a loop that come twice, an edge beside the jump and
another way to the loop. -/
theorem parallel_edges_enter_once :
    let start : Place := ⟨0, 0⟩
    let head : Place := ⟨0, 4⟩
    let exit : Place := ⟨0, 8⟩
    let jump := FlowEdge.ofReference start exit .nearJump
    let beside := FlowEdge.ofFallThrough start exit
    let loop := FlowEdge.ofReference head head .conditionalJump
    let into := FlowEdge.ofFallThrough start head
    let changes : List (Graph.Change FlowEdge) :=
      [.add beside, .clear, .add jump, .add loop, .add jump, .add into, .add beside, .add loop]
    let flow := after changes
    flow.edges = [jump, loop, into, beside] ∧ jump ∈ flow.edges ∧ (flow.add jump).1 = flow ∧
      flow.successors start = [exit, head] ∧ flow.predecessors head = [head, start] := by
  intro start head exit jump beside loop into changes flow
  obtain ⟨-, entering, -, -⟩ := edges_enter_once changes
  have known : jump ∈ flow.edges := by decide
  exact ⟨by decide, known, (entering jump).2 known, by decide, by decide⟩

end RealMode.FlowGraph
