import RealMode.Proofs.Analysis.Successors
import RealMode.Proofs.Block.Editing

/-! The blocks that procedures list.

A procedure lists its entry, if a block starts there, and what control reaches from the entry on edges
that are no calls and lead to no entry, be it that of another procedure or its own. -/

set_option autoImplicit false

namespace RealMode.Analysis

/-- Control passes between two places on an edge that is no call and does not lead to an entry. -/
def PassesWithin (edges : List FlowEdge) (entries : List Place) (source target : Place) : Prop :=
  ∃ edge ∈ edges, edge.source = source ∧ edge.target = target ∧ edge.kind ≠ .call ∧ target ∉ entries

theorem not_mem_of_passesWithin {edges : List FlowEdge} {entries : List Place} {source target : Place}
    (path : Relation.TransGen (PassesWithin edges entries) source target) : target ∉ entries := by
  -- Only the last edge of the path matters.
  obtain ⟨_, -, _, -, -, -, -, outside⟩ := Relation.TransGen.tail'_iff.mp path
  exact outside

theorem strict_blocksOf (state : Analysis) (entry : Place) :
    (state.blocksOf entry).Pairwise (· < ·) := by
  have sorted := (ascending_blocksOf state entry).and (nodup_blocksOf state entry)
  exact sorted.imp fun ⟨notAbove, differ⟩ => Place.lt_of_not_lt notAbove differ

section Linked

variable {state : Analysis}

theorem mem_assignBlocks_iff {procedure : Procedure} :
    procedure ∈ state.assignBlocks.procedures.procedures ↔
      ∃ declared ∈ state.procedures.procedures,
        procedure = { declared with blocks := state.blocksOf declared.entry } := by
  simp only [assignBlocks, ProcedureTable.mapBlocks, List.mem_map, eq_comm]

theorem stays_eq_passesWithin (adjacent : state.flow.Adjacent) :
    state.Stays = PassesWithin state.flow.edges state.procedures.entries := by
  funext source target
  rw [Stays, eq_iff_iff, mem_inside_iff adjacent, PassesWithin]

/-- The blocks of a procedure are its entry and what can be reached from there, if a block starts at the
entry. -/
theorem mem_blocksOf_iff_passes (ordered : state.blocks.Ordered) (adjacent : state.flow.Adjacent)
    {entry place : Place} :
    place ∈ state.blocksOf entry ↔ (∃ block ∈ state.blocks.blocks, block.first = entry) ∧
      (place = entry ∨
        Relation.TransGen (PassesWithin state.flow.edges state.procedures.entries) entry place) := by
  rw [mem_blocksOf_iff ordered adjacent, stays_eq_passesWithin adjacent,
    Relation.reflTransGen_iff_eq_or_transGen]

end Linked

/-- The state with the blocks that some edits leave, and with some edges between them. -/
def laidOut (state : Analysis) (edits : List BlockIndex.Edit) (edges : List FlowEdge) : Analysis :=
  { state with blocks := .after edits, flow := FlowGraph.empty.addAll edges }

theorem mem_blocksOf_laidOut {state : Analysis} {edits : List BlockIndex.Edit} {edges : List FlowEdge}
    {entry place : Place} :
    place ∈ (state.laidOut edits edges).blocksOf entry ↔
      (∃ block ∈ BlockIndex.blocksAfter edits, block.first = entry) ∧
        (place = entry ∨
          Relation.TransGen (PassesWithin edges state.procedures.entries) entry place) := by
  obtain ⟨ordered, perm⟩ := BlockIndex.after_holds edits
  have adjacent : (state.laidOut edits edges).flow.Adjacent := FlowGraph.Adjacent.empty.addAll edges
  have starts : (∃ block ∈ (state.laidOut edits edges).blocks.blocks, block.first = entry) ↔
      ∃ block ∈ BlockIndex.blocksAfter edits, block.first = entry :=
    exists_congr fun block => and_congr_left fun _ => perm.mem_iff
  have within : PassesWithin (state.laidOut edits edges).flow.edges state.procedures.entries =
      PassesWithin edges state.procedures.entries := by
    funext source target
    simp only [PassesWithin, laidOut, FlowGraph.mem_edges_addAll, FlowGraph.edges_empty, List.not_mem_nil,
      false_or]
  rw [mem_blocksOf_iff_passes ordered adjacent, starts, ← within]
  rfl

/-- Whatever the blocks, the edges and the procedures are, each procedure lists its blocks by ascending
place and each once. Where a block starts at its entry, these are the entry and the ends of all paths
from it within the procedure, and otherwise there are none. So no procedure lists the entry of another
one. -/
theorem assignBlocks_lists_reached (state : Analysis) (edits : List BlockIndex.Edit)
    (edges : List FlowEdge) :
    let entries := state.procedures.entries
    let linked := (state.laidOut edits edges).assignBlocks
    linked.procedures.entries = entries ∧
    ∀ procedure ∈ linked.procedures.procedures,
      procedure.blocks.Pairwise (· < ·) ∧
      ((∃ block ∈ BlockIndex.blocksAfter edits, block.first = procedure.entry) →
        ∀ place, place ∈ procedure.blocks ↔
          place = procedure.entry ∨ Relation.TransGen (PassesWithin edges entries) procedure.entry place) ∧
      ((¬∃ block ∈ BlockIndex.blocksAfter edits, block.first = procedure.entry) →
        procedure.blocks = []) ∧
      ∀ other ∈ linked.procedures.procedures, other.entry ∈ procedure.blocks →
        other.entry = procedure.entry := by
  intro entries linked
  have listed : linked.procedures.entries = entries := state.procedures.entries_mapBlocks _
  refine ⟨listed, fun procedure member => ?_⟩
  obtain ⟨declared, -, rfl⟩ := mem_assignBlocks_iff.mp member
  refine ⟨strict_blocksOf _ _, fun opens place => ?_, fun unopened => ?_, fun other found lists => ?_⟩
  · rw [mem_blocksOf_laidOut, and_iff_right opens]
  · apply List.eq_nil_iff_forall_not_mem.mpr
    intro place found
    exact unopened (mem_blocksOf_laidOut.mp found).1
  · have isEntry : other.entry ∈ entries := listed ▸ List.mem_map_of_mem found
    exact (mem_blocksOf_laidOut.mp lists).2.resolve_right fun path => not_mem_of_passesWithin path isEntry

/-- A loop of three blocks, which leads back to its entry, and an edge from there into the procedure
behind it. The loop calls a block outside, and an edge from that one leads to a third entry, at which no
block starts. -/
def loopEdges : List FlowEdge :=
  [⟨⟨0, 0⟩, ⟨0, 4⟩, .branch, some .nearJump⟩, ⟨⟨0, 4⟩, ⟨0, 2⟩, .branch, some .conditionalJump⟩,
    ⟨⟨0, 2⟩, ⟨0, 4⟩, .fallThrough, none⟩, ⟨⟨0, 4⟩, ⟨0, 0⟩, .branch, some .conditionalJump⟩,
    ⟨⟨0, 4⟩, ⟨0, 6⟩, .fallThrough, none⟩, ⟨⟨0, 2⟩, ⟨0, 8⟩, .call, some .nearCall⟩,
    ⟨⟨0, 8⟩, ⟨0, 12⟩, .branch, some .nearJump⟩]

def loopEdits : List BlockIndex.Edit :=
  [.add ⟨0, 0, 2, .terminated⟩, .add ⟨0, 2, 4, .fallThrough⟩, .add ⟨0, 4, 6, .conditional⟩,
    .add ⟨0, 6, 8, .terminated⟩, .add ⟨0, 8, 10, .terminated⟩]

def loopState : Analysis :=
  { Analysis.fresh .empty {} with
    procedures :=
      ⟨[⟨⟨0, 0⟩, ⟨.segment 0, 0⟩, "loop", .near, []⟩, ⟨⟨0, 6⟩, ⟨.segment 0, 6⟩, "next", .near, []⟩,
        ⟨⟨0, 12⟩, ⟨.segment 0, 12⟩, "empty", .far, [⟨0, 6⟩]⟩], .empty none⟩ }

/-- The loop has the blocks to which its jumps lead. It has neither the block that it calls nor the next
procedure into which it falls. -/
theorem loop_assignBlocks_lists_reached :
    ∃ loop next empty, (loopState.laidOut loopEdits loopEdges).assignBlocks.procedures.procedures =
        [loop, next, empty] ∧
      ⟨0, 2⟩ ∈ loop.blocks ∧ ⟨0, 8⟩ ∉ loop.blocks ∧ ⟨0, 6⟩ ∉ loop.blocks ∧ ⟨0, 6⟩ ∈ next.blocks ∧
      empty.blocks = [] := by
  obtain ⟨-, lists⟩ := assignBlocks_lists_reached loopState loopEdits loopEdges
  refine ⟨_, _, _, rfl, ?_⟩
  obtain ⟨-, ofLoop, -, noOther⟩ := lists _ List.mem_cons_self
  obtain ⟨-, ofNext, -⟩ := lists _ (List.mem_cons_of_mem _ List.mem_cons_self)
  obtain ⟨-, -, ofEmpty, -⟩ := lists _ (List.mem_cons_of_mem _ (List.mem_cons_of_mem _ List.mem_cons_self))
  have loopOpens : ∃ block ∈ BlockIndex.blocksAfter loopEdits, block.first = ⟨0, 0⟩ := by decide +kernel
  have nextOpens : ∃ block ∈ BlockIndex.blocksAfter loopEdits, block.first = ⟨0, 6⟩ := by decide +kernel
  have path : Relation.TransGen (PassesWithin loopEdges loopState.procedures.entries) ⟨0, 0⟩ ⟨0, 2⟩ :=
    .tail (.single ⟨⟨⟨0, 0⟩, ⟨0, 4⟩, .branch, some .nearJump⟩, by decide, rfl, rfl, by decide, by decide⟩)
      ⟨⟨⟨0, 4⟩, ⟨0, 2⟩, .branch, some .conditionalJump⟩, by decide, rfl, rfl, by decide, by decide⟩
  refine ⟨(ofLoop loopOpens _).mpr (.inr path), fun listed => ?_, fun listed => ?_,
    (ofNext nextOpens _).mpr (.inl rfl), ofEmpty (by decide +kernel)⟩
  · rcases (ofLoop loopOpens _).mp listed with start | reached
    · exact absurd start (by decide)
    · obtain ⟨_, -, edge, member, -, leads, noCall, -⟩ := Relation.TransGen.tail'_iff.mp reached
      revert edge
      decide
  · exact absurd (noOther _ (List.mem_cons_of_mem _ List.mem_cons_self) listed) (by decide)

end RealMode.Analysis
