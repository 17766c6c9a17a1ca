import RealMode.Proofs.Analysis.Frame
import RealMode.Proofs.Analysis.Growth
import RealMode.Proofs.Analysis.Linking

/-! Analyses that are run one after the other.

Every analysis enters the edges that its references and blocks stand for, and no edge is ever taken
back. So an edge of an earlier analysis outlives a cut of the block at which it starts, although its
reference leaves from behind the cut by then. -/

set_option autoImplicit false

namespace RealMode

/-- A reference of the kind of an edge leads from inside a block to the target of the edge. -/
def Reference.Backs (reference : Reference) (program : Program) (block : Block) (edge : FlowEdge) :
    Prop :=
  edge.cause = some reference.kind ∧
    (∃ place ∈ reference.source.bind program.resolve, block.contains place = true) ∧
    reference.target.bind program.resolve = some edge.target

instance (reference : Reference) (program : Program) (block : Block) (edge : FlowEdge) :
    Decidable (reference.Backs program block edge) :=
  inferInstanceAs (Decidable (_ ∧ _ ∧ _))

theorem Reference.Backs.of_remarked {reference : Reference} {program later : Program} {block : Block}
    {edge : FlowEdge} (backs : reference.Backs program block edge) (remarked : program.Remarked later) :
    reference.Backs later block edge := by
  have resolve : later.resolve = program.resolve := funext remarked.resolve
  unfold Backs
  rw [resolve]
  exact backs

namespace Analysis

/-- The block at the source of an edge holds the source of a recorded reference that backs it. -/
def Warrants (state : Analysis) (edge : FlowEdge) : Prop :=
  ∃ block ∈ state.blocks.blocks, block.first = edge.source ∧
    ∃ reference ∈ state.references.toList, reference.Backs state.program block edge

instance (state : Analysis) (edge : FlowEdge) : Decidable (state.Warrants edge) :=
  inferInstanceAs (Decidable (∃ block ∈ _, _ ∧ ∃ reference ∈ _, _))

/-- The block of an edge has been cut since, before the source of a reference that backs the edge. -/
def Severed (earlier later : Analysis) (edge : FlowEdge) : Prop :=
  ∃ whole ∈ earlier.blocks.blocks, ∃ cutoff, whole.start < cutoff ∧ cutoff < whole.stop ∧
    whole.first = edge.source ∧ BlockIndex.head whole cutoff ∈ later.blocks.blocks ∧
    ∃ reference ∈ earlier.references.toList,
      reference.Backs earlier.program (BlockIndex.tail whole cutoff) edge

/-- What warrants an edge is lost only if its block is cut before the source of the reference. -/
theorem Warrants.survives {earlier later : Analysis} {edge : FlowEdge}
    (warrants : earlier.Warrants edge) (grows : earlier.Grows later) :
    later.Warrants edge ∨ Severed earlier later edge := by
  obtain ⟨whole, member, first, reference, recorded, backs⟩ := warrants
  obtain ⟨part, partMember, opens⟩ := grows.blocks whole member
  have kept := grows.references.subset recorded
  obtain ⟨cause, ⟨place, located, inside⟩, aimed⟩ := backs
  cases opens with
  | uncut =>
      have again : reference.Backs earlier.program whole edge := ⟨cause, ⟨place, located, inside⟩, aimed⟩
      exact .inl ⟨whole, partMember, first, reference, kept, again.of_remarked grows.remarked⟩
  | @cut cutoff above below =>
      rcases (BlockIndex.contains_parts above below place).mp inside with inHead | inTail
      · have again : reference.Backs earlier.program (BlockIndex.head whole cutoff) edge :=
          ⟨cause, ⟨place, located, inHead⟩, aimed⟩
        exact .inl ⟨_, partMember, first, reference, kept, again.of_remarked grows.remarked⟩
      · exact .inr ⟨whole, member, cutoff, above, below, first, partMember, reference, recorded, cause,
          ⟨place, located, inTail⟩, aimed⟩

theorem Severed.not_subset {earlier later : Analysis} {edge : FlowEdge}
    (severed : Severed earlier later edge) (ordered : later.blocks.Ordered) :
    ¬earlier.blocks.blocks ⊆ later.blocks.blocks := by
  obtain ⟨whole, member, cutoff, above, below, -, part, -⟩ := severed
  intro uncut
  -- The block and its first part would both be there, and they share a byte.
  have same := ordered.eq_of_contains (uncut member) part
    (ordered.contains_first (uncut member)) (ordered.contains_first part)
  exact absurd (congrArg Block.stop same) (Nat.ne_of_gt below)

theorem Justifies.warrants {state : Analysis} {edge : FlowEdge} (justifies : state.Justifies edge)
    (ordered : state.blocks.Ordered) (refers : edge.kind ≠ .fallThrough) : state.Warrants edge := by
  cases justifies with
  | @reference reference recorded found =>
      obtain ⟨source, target, place, block, next, starts, points, located, member, inside, -, aimed,
        rfl⟩ := (referenceEdge_eq_ok_iff ordered).mp found
      refine ⟨block, member, rfl, reference, recorded, rfl, ⟨place, ?_, inside⟩, ?_⟩
      · rw [starts, Option.bind_some, located]
        rfl
      · rw [points, Option.bind_some, aimed]
        rfl
  | neighbour _ found =>
      obtain ⟨-, _, -, -, rfl⟩ := (fallThroughEdge?_eq_some_iff ordered).mp found
      exact absurd rfl refers

theorem Derived.justifies_iff {state after : Analysis} (derived : state.Derived after)
    (edge : FlowEdge) : after.Justifies edge ↔ state.Justifies edge := by
  obtain ⟨_, _, _, _, rfl⟩ := derived
  constructor
  · rintro (⟨recorded, found⟩ | ⟨member, found⟩)
    · exact .reference recorded found
    · exact .neighbour member found
  · rintro (⟨recorded, found⟩ | ⟨member, found⟩)
    · exact .reference recorded found
    · exact .neighbour member found

section Run

variable {program : Program} {decoder : Decoder} {settings : Settings} {state : Analysis}
  (regular : program.Regular) (placed : decoder.Placed)
  (reached : Reached decoder program settings state) (entries : List EntryPoint)

include regular placed reached

/-- A whole analysis enters the edges to which its results give rise, and it keeps all others. -/
theorem run_edges (edge : FlowEdge) :
    edge ∈ (run decoder state entries).state.flow.edges ↔
      edge ∈ state.flow.edges ∨ (run decoder state entries).state.Justifies edge := by
  have found := (reached.findBlocks regular placed entries).reached
  have kept : (findBlocks decoder state entries).state.flow = state.flow :=
    congrArg (·.2.2.2.1) (standing_findBlocks decoder state entries)
  obtain ⟨flow, linked, -, edges⟩ := linkBlocks_eq (found.linkBlocks regular placed).faultless
  obtain ⟨findings, finished⟩ := run_eq regular placed reached entries
  have same : (run decoder state entries).state.flow = flow := by
    rw [finished]
    exact (findProcedures_flow _).trans (congrArg (·.state.flow) linked)
  rw [same, edges, kept, (run_derived regular placed reached entries).justifies_iff]

theorem Reached.run_grows : state.Grows (Analysis.run decoder state entries).state := by
  obtain ⟨-, proceeds⟩ := reached.proceeds regular placed entries
  have derives : Step decoder ⟨_, .idle⟩ ⟨_, .idle⟩ := (run_derived regular placed reached entries).step
  have steps := (Relation.ReflTransGen.head (enter_step state entries) proceeds.steps).tail derives
  exact Steps.grows (reached.sound regular placed) regular placed steps

end Run

/-- A branch or call of two analyses in a row is warranted by the blocks and the references at the
end, or it comes from the first analysis and its block has been cut before its reference. So all of
them are warranted if the second analysis cuts no block of the first. -/
theorem runs_warrant_edges {program : Program} {decoder : Decoder} (built : program.Built)
    (placed : decoder.Placed) (settings : Settings) (entries others : List EntryPoint) :
    let first := run decoder (.fresh program settings) entries
    let second := run decoder first.state others
    first.fault = none ∧ second.fault = none ∧
    (∀ edge ∈ second.state.flow.edges, edge.kind ≠ .fallThrough →
      second.state.Warrants edge ∨
        edge ∈ first.state.flow.edges ∧ Severed first.state second.state edge) ∧
    (first.state.blocks.blocks ⊆ second.state.blocks.blocks →
      ∀ edge ∈ second.state.flow.edges, edge.kind ≠ .fallThrough → second.state.Warrants edge) := by
  intro first second
  have start : Reached decoder program settings (.fresh program settings) := .refl
  obtain ⟨firstFaultless, reached⟩ := start.run built.regular placed entries
  obtain ⟨secondFaultless, secondReached⟩ := reached.run built.regular placed others
  have ordered : second.state.blocks.Ordered :=
    (secondReached.sound built.regular placed).owned.ordered
  have dichotomy : ∀ edge ∈ second.state.flow.edges, edge.kind ≠ .fallThrough →
      second.state.Warrants edge ∨
        edge ∈ first.state.flow.edges ∧ Severed first.state second.state edge := by
    intro edge member refers
    rcases (run_edges built.regular placed reached others edge).mp member with earlier | justifies
    · rcases (run_edges built.regular placed start entries edge).mp earlier with none | justifies
      · exact absurd none List.not_mem_nil
      · have warrants := justifies.warrants (reached.sound built.regular placed).owned.ordered refers
        exact (warrants.survives (reached.run_grows built.regular placed others)).imp_right
          fun severed => ⟨earlier, severed⟩
    · exact .inl (justifies.warrants ordered refers)
  refine ⟨firstFaultless, secondFaultless, dichotomy, fun uncut edge member refers => ?_⟩
  rcases dichotomy edge member refers with warrants | ⟨-, severed⟩
  · exact warrants
  · exact absurd uncut (severed.not_subset ordered)

/-- The first analysis starts before the jump through the table, the second one at the jump. -/
def sampleCuts : Analysis × Analysis :=
  let first := (run sampleDecoder (.fresh sample {}) [⟨⟨.segment 0, 2⟩, none, .near⟩]).state
  (first, (run sampleDecoder first [⟨⟨.segment 0, 4⟩, none, .near⟩]).state)

/-- The jump is cut off from the block at which its edge to the return starts. -/
theorem sample_runs_warrant_edges :
    let edge : FlowEdge := .ofReference ⟨0, 2⟩ ⟨0, 12⟩ .indexedJump
    sample.Built ∧ sampleDecoder.Placed ∧ edge ∈ sampleCuts.2.flow.edges ∧
      edge.kind ≠ .fallThrough ∧ edge ∈ sampleCuts.1.flow.edges ∧
      Severed sampleCuts.1 sampleCuts.2 edge := by
  intro edge
  have listed : edge ∈ sampleCuts.2.flow.edges := by decide +kernel
  have unwarranted : ¬sampleCuts.2.Warrants edge := by decide +kernel
  obtain ⟨-, -, dichotomy, -⟩ := runs_warrant_edges sample_built sampleDecoder_placed {}
    [⟨⟨.segment 0, 2⟩, none, .near⟩] [⟨⟨.segment 0, 4⟩, none, .near⟩]
  have severed := (dichotomy edge listed (by decide)).resolve_left unwarranted
  exact ⟨sample_built, sampleDecoder_placed, listed, by decide, severed⟩

/-- Not every branch of two analyses in a row is warranted at the end. -/
theorem sample_run_keeps_unwarranted_edge :
    ∃ edge ∈ sampleCuts.2.flow.edges, edge.kind ≠ .fallThrough ∧ ¬sampleCuts.2.Warrants edge := by
  decide +kernel

end Analysis

end RealMode
