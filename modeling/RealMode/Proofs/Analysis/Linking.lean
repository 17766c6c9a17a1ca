import RealMode.Proofs.Analysis.Calls
import RealMode.Proofs.Analysis.Frame
import RealMode.Proofs.FlowGraph

/-! The edges that linking enters.

They are those of recorded references, from the block around the source to the block at the target,
and those from a block that runs on to the block behind it. -/

set_option autoImplicit false

namespace RealMode.Analysis

/-- An edge stands for a recorded reference or for a block that runs on. -/
inductive Justifies (state : Analysis) (edge : FlowEdge) : Prop where
  | reference {reference : Reference} (recorded : reference ∈ state.references.toList)
      (found : state.referenceEdge reference = .ok (some edge))
  | neighbour {block : Block} (member : block ∈ state.blocks.blocks)
      (found : state.fallThroughEdge? block = some edge)

theorem linkReferences_eq {state : Analysis} {references : List Reference}
    (faultless : (linkReferences state references).fault = none) :
    ∃ flow, linkReferences state references = .done { state with flow } ∧
      (state.flow.Adjacent → flow.Adjacent) ∧
      ∀ edge, edge ∈ flow.edges ↔ edge ∈ state.flow.edges ∨
        ∃ reference ∈ references, state.referenceEdge reference = .ok (some edge) := by
  induction references generalizing state with
  | nil => exact ⟨state.flow, rfl, id, by simp⟩
  | cons reference rest ih =>
      rw [linkReferences] at faultless ⊢
      cases found : state.referenceEdge reference with
      | error fault => simp [found] at faultless
      | ok edge? =>
          simp only [found] at faultless
          obtain ⟨flow, done, adjacent, edges⟩ := ih faultless
          refine ⟨flow, done, fun earlier => adjacent (earlier.addAll _), fun edge => ?_⟩
          -- Edges entered before do not change what the later references stand for.
          rw [edges, FlowGraph.mem_edges_addAll, Option.mem_toList, or_assoc]
          simp only [List.mem_cons, or_and_right, exists_or, exists_eq_left, found, Except.ok.injEq]
          rfl

theorem linkBlocks_eq {state : Analysis} (faultless : state.linkBlocks.fault = none) :
    ∃ flow, state.linkBlocks = .done { state with flow } ∧
      (state.flow.Adjacent → flow.Adjacent) ∧
      ∀ edge, edge ∈ flow.edges ↔ edge ∈ state.flow.edges ∨ state.Justifies edge := by
  unfold linkBlocks at faultless ⊢
  obtain ⟨middle, linked, -⟩ := Outcome.andThen_eq_done (Outcome.eq_done faultless)
  obtain ⟨flow, done, adjacent, edges⟩ := linkReferences_eq (by rw [linked]; rfl)
  rw [done, Outcome.andThen_done]
  refine ⟨_, rfl, fun earlier => (adjacent earlier).addAll _, fun edge => ?_⟩
  rw [FlowGraph.mem_edges_addAll, edges, List.mem_filterMap, or_assoc]
  refine or_congr_right ⟨?_, ?_⟩
  · rintro (⟨reference, recorded, found⟩ | ⟨block, member, found⟩)
    · exact .reference recorded found
    · exact .neighbour member found
  · rintro (⟨recorded, found⟩ | ⟨member, found⟩)
    · exact .inl ⟨_, recorded, found⟩
    · exact .inr ⟨_, member, found⟩

theorem flow_linkReferences (state : Analysis) (references : List Reference) :
    ∃ edges, (linkReferences state references).state.flow = state.flow.addAll edges := by
  induction references generalizing state with
  | nil => exact ⟨[], rfl⟩
  | cons reference rest ih =>
      rw [linkReferences]
      cases state.referenceEdge reference with
      | error fault => exact ⟨[], rfl⟩
      | ok edge =>
          obtain ⟨edges, later⟩ := ih { state with flow := state.flow.addAll edge.toList }
          exact ⟨edge.toList ++ edges, later.trans (FlowGraph.addAll_append ..).symm⟩

/-- Linking enters edges, one after the other, and does nothing else to the flow. -/
theorem flow_linkBlocks (state : Analysis) :
    ∃ edges, state.linkBlocks.state.flow = state.flow.addAll edges := by
  let middle := (linkReferences state state.references.toList).state
  obtain ⟨edges, linked⟩ := flow_linkReferences state state.references.toList
  unfold linkBlocks Outcome.andThen
  split
  · refine ⟨edges ++ middle.blocks.blocks.filterMap middle.fallThroughEdge?, ?_⟩
    rw [FlowGraph.addAll_append, ← linked]
    rfl
  · exact ⟨edges, linked⟩

theorem nodup_linkBlocks {state : Analysis} (nodup : state.flow.edges.Nodup) :
    state.linkBlocks.state.flow.edges.Nodup := by
  obtain ⟨edges, linked⟩ := state.flow_linkBlocks
  rw [linked]
  exact FlowGraph.nodup_edges_addAll nodup edges

section Edges

variable {state : Analysis} {block next : Block}

theorem referenceEdge_eq_ok_iff (ordered : state.blocks.Ordered) {reference : Reference}
    {edge : FlowEdge} :
    state.referenceEdge reference = .ok (some edge) ↔
      ∃ source target place block next, reference.source = some source ∧
        reference.target = some target ∧ state.program.resolve source = some place ∧
        block ∈ state.blocks.blocks ∧ block.contains place = true ∧
        next ∈ state.blocks.blocks ∧ state.program.resolve target = some next.first ∧
        edge = .ofReference block.first next.first reference.kind := by
  constructor
  · intro found
    unfold referenceEdge at found
    split at found
    · rename_i place target reached points
      obtain ⟨source, starts, located⟩ := Option.bind_eq_some_iff.mp reached
      split at found
      · cases found
      · rename_i block holds
        obtain ⟨member, inside⟩ := ordered.find?_eq_some_iff.mp holds
        split at found
        · cases found
        · rename_i next arrives
          obtain ⟨first, aimed, starting⟩ := Option.bind_eq_some_iff.mp arrives
          obtain ⟨nextMember, rfl⟩ := ordered.startingAt?_eq_some_iff.mp starting
          cases found
          exact ⟨source, target, place, block, next, starts, points, located, member, inside,
            nextMember, aimed, rfl⟩
    · cases found
  · rintro ⟨source, target, place, block, next, starts, points, located, member, inside, nextMember,
      aimed, rfl⟩
    have holds := ordered.find?_eq_some_iff.mpr ⟨member, inside⟩
    have starting := ordered.startingAt?_eq_some_iff.mpr ⟨nextMember, rfl⟩
    simp only [referenceEdge, starts, points, Option.bind_some, located, holds, aimed, starting]

theorem fallThroughEdge?_eq_some_iff (ordered : state.blocks.Ordered) {edge : FlowEdge} :
    state.fallThroughEdge? block = some edge ↔ state.runsOn block = true ∧
      ∃ next ∈ state.blocks.blocks, next.first = block.behind ∧
        edge = .ofFallThrough block.first next.first := by
  unfold fallThroughEdge?
  split
  · rename_i runs
    rw [Option.map_eq_some_iff, and_iff_right runs]
    constructor
    · rintro ⟨next, starting, rfl⟩
      obtain ⟨member, adjoins⟩ := ordered.startingAt?_eq_some_iff.mp starting
      exact ⟨next, member, adjoins, rfl⟩
    · rintro ⟨next, member, adjoins, rfl⟩
      exact ⟨next, ordered.startingAt?_eq_some_iff.mpr ⟨member, adjoins⟩, rfl⟩
  · rename_i ends
    simp [ends]

/-- An edge leads to the start of a block, and a call leads where a recorded call aims. -/
theorem Justifies.target {edge : FlowEdge} (justifies : state.Justifies edge)
    (ordered : state.blocks.Ordered) :
    (∃ block ∈ state.blocks.blocks, block.first = edge.target) ∧
      (edge.kind = .call → ∃ reference ∈ state.references.toList, ∃ target,
        reference.kind.isCall = true ∧ reference.target = some target ∧
          state.program.resolve target = some edge.target) := by
  cases justifies with
  | @reference reference recorded found =>
      obtain ⟨source, target, place, block, next, -, points, -, -, -, member, aimed, rfl⟩ :=
        (referenceEdge_eq_ok_iff ordered).mp found
      refine ⟨⟨next, member, rfl⟩, fun call => ⟨reference, recorded, target, ?_, points, aimed⟩⟩
      by_contra other
      simp [FlowEdge.ofReference, other] at call
  | neighbour member found =>
      obtain ⟨-, next, nextMember, -, rfl⟩ := (fallThroughEdge?_eq_some_iff ordered).mp found
      exact ⟨⟨next, nextMember, rfl⟩, nofun⟩

end Edges

/-- The edges behind a first search are those that it justifies. -/
theorem linkBlocks_findBlocks {program : Program} {decoder : Decoder} (regular : program.Regular)
    (placed : decoder.Placed) (settings : Settings) (entries : List EntryPoint) :
    let found := findBlocks decoder (.fresh program settings) entries
    found.fault = none ∧ found.state.linkBlocks.fault = none ∧
      ∃ flow, found.state.linkBlocks = .done { found.state with flow } ∧ flow.Adjacent ∧
        ∀ edge, edge ∈ flow.edges ↔ found.state.Justifies edge := by
  intro found
  have start : Reached decoder program settings (.fresh program settings) := .refl
  obtain ⟨faultless, reached⟩ := start.findBlocks regular placed entries
  have linkedFaultless := (reached.linkBlocks regular placed).faultless
  have flowless : found.state.flow = .empty := flow_findBlocks_fresh decoder program settings entries
  obtain ⟨flow, done, adjacent, edges⟩ := linkBlocks_eq linkedFaultless
  rw [flowless] at adjacent edges
  exact ⟨faultless, linkedFaultless, flow, done, adjacent .empty,
    fun edge => (edges edge).trans (or_iff_right List.not_mem_nil)⟩

/-- A whole analysis enters the edges that its search justifies. Then it finds procedures and checks
the segments. -/
theorem run_fresh_linked {program : Program} {decoder : Decoder} (regular : program.Regular)
    (placed : decoder.Placed) (settings : Settings) (entries : List EntryPoint) :
    let found := (findBlocks decoder (.fresh program settings) entries).state
    ∃ flow, flow.Adjacent ∧ (∀ edge, edge ∈ flow.edges ↔ found.Justifies edge) ∧
      let last := ({ found with flow } : Analysis).findProcedures.state
      run decoder (.fresh program settings) entries = .done { last with
        diagnostics := last.diagnostics ++
          if settings.checkSegments then found.program.segmentOverlaps else [] } := by
  intro found
  have start : Reached decoder program settings (.fresh program settings) := .refl
  obtain ⟨-, -, flow, linked, adjacent, edges⟩ :=
    linkBlocks_findBlocks regular placed settings entries
  let last := ({ found with flow } : Analysis).findProcedures.state
  have derived : Derived { found with flow } last :=
    ({ found with flow } : Analysis).findProcedures_derives.derived
  have configured : last.settings = settings :=
    derived.settings.trans (settings_findBlocks_fresh decoder program settings entries)
  have layout : (if last.settings.checkSegments then last.program.segmentOverlaps else []) =
      if settings.checkSegments then found.program.segmentOverlaps else [] := by
    rw [configured, derived.program]
  have done := run_eq_done regular placed start entries
  rw [linked] at done
  exact ⟨flow, adjacent, edges, by rw [← layout]; exact done⟩

end RealMode.Analysis
