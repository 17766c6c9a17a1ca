import RealMode.Proofs.Analysis.Frame
import RealMode.Proofs.Analysis.Linking
import RealMode.Proofs.Analysis.References
import RealMode.Proofs.Analysis.Tiling

/-! Where control-flow edges start and end.

A branch leaves its block with the last instruction, because control does not run on behind a jump.
A call may leave its block anywhere, and a block that runs on does so where it ends. -/

set_option autoImplicit false

namespace RealMode.Analysis

/-- The last instruction of a block starts at a place. -/
structure LastOf (decoder : Decoder) (program : Program) (block : Block) (place : Place) : Prop where
  inside : block.contains place = true
  starts : (program.marksAt place).startsCode = true
  reaches : ∃ image, program.image? place.image = some image ∧ ∀ ip, ∃ read,
    decoder image place.offset ip = .ok read ∧ read.stop = block.stop

/-- In a block, control does not run on behind the last instruction only. -/
theorem Genuine.lastOf {decoder : Decoder} {program : Program} {block : Block} {place : Place}
    {image other : Image} {ip : UInt16} {instruction : Instruction}
    (genuine : Genuine decoder program block) (placed : decoder.Placed)
    (steady : decoder.Steady fun instruction => (instruction.length, instruction.flow))
    (inside : block.contains place = true) (starts : (program.marksAt place).startsCode = true)
    (found : program.image? place.image = some image) (same : other.blank = image.blank)
    (decoded : decoder other place.offset ip = .ok instruction)
    (leaves : instruction.flow.runsOn = false) : LastOf decoder program block place := by
  obtain ⟨leading, last, tiles, ahead, -⟩ := genuine
  obtain ⟨sameImage, low, high⟩ := Block.contains_iff.mp inside
  have lookup : program.image? block.image = some image := sameImage ▸ found
  have byte : place = ⟨block.image, place.offset⟩ := by rw [← sameImage]
  rw [byte] at starts
  obtain ⟨tile, member, offset⟩ := (tiles.startsCode_iff low high).mp starts
  -- The instruction at the place has been decoded twice, with the same flow.
  have flow : tile.flow = instruction.flow := by
    obtain ⟨read, readAgain, -, readFlow⟩ := tiles.reads steady lookup member ip
    obtain ⟨again, decodedAgain, alike⟩ := steady.decodes same decoded ip
    rw [offset, decodedAgain] at readAgain
    obtain rfl := Except.ok.inj readAgain
    exact readFlow.symm.trans (Prod.mk.inj alike).2
  have isLast : tile = last := by
    rcases List.mem_append.mp member with earlier | final
    · rw [← flow, ahead tile earlier] at leaves
      cases leaves
    · exact List.mem_singleton.mp final
  subst isLast
  refine ⟨inside, byte ▸ starts, image, found, fun otherIp => ?_⟩
  obtain ⟨read, readAgain, length, -⟩ := tiles.reads steady lookup member otherIp
  rw [offset] at readAgain
  refine ⟨read, readAgain, ?_⟩
  have reached := laid_last tiles.laid
  rw [Instruction.stop] at reached ⊢
  rw [(placed _ _ _ _ readAgain).1, length, ← offset, reached]

/-- A recorded reference that is no call starts at the last instruction of the block that holds its
source. -/
theorem Ledger.lastOf {decoder : Decoder} {origin : Program} {settings : Settings}
    {entries : List EntryPoint} {readings : List Reading} {finished : List Task} {state : Analysis}
    (ledger : Ledger decoder origin settings entries readings finished ⟨state, .idle⟩)
    (remarked : origin.Remarked state.program) (tiled : Tiled decoder origin ⟨state, .idle⟩)
    (placed : decoder.Placed)
    (steady : decoder.Steady fun instruction => (instruction.length, instruction.flow))
    {reference : Reference} (recorded : reference ∈ state.references.toList)
    (noCall : reference.kind.isCall = false) {source : Address} {place : Place} {block : Block}
    (starts : reference.source = some source) (reached : state.program.resolve source = some place)
    (member : block ∈ state.blocks.blocks) (inside : block.contains place = true) :
    LastOf decoder state.program block place := by
  obtain ⟨reading, read, rfl, left⟩ := ledger.source_read recorded starts
  obtain ⟨located, -, image, other, found, same, decoded⟩ := ledger.read reading read
  rw [remarked.resolve, located, Option.some.injEq] at reached
  subst reached
  obtain ⟨later, laterFound, blank⟩ := remarked.exists_image found
  have leaves : reading.instruction.flow.runsOn = false := by
    rcases left with own | ⟨table, -⟩
    · rw [← (mem_instructionReferences own).2.2, noCall]
    · rw [flow_of_goesThroughTable table]
      rfl
  exact (tiled.blocks block member).lastOf placed steady inside
    ((ledger.marked _).mp ⟨reading, read, rfl⟩).2 laterFound (same.trans blank.symm) decoded leaves

/-- Control falls out of a block at its end without a reference that says so. -/
def FallsOut (settings : Settings) (block : Block) : Prop :=
  block.exit = .fallThrough ∨ block.exit = .conditional ∧ settings.recordFallThrough = false

theorem runsOn_iff {state : Analysis} {block : Block} :
    state.runsOn block = true ↔ FallsOut state.settings block := by
  unfold runsOn FallsOut
  cases block.exit <;> simp

/-- The reasons for an edge from one block to another, by the kind of the edge. -/
def Explains (decoder : Decoder) (state : Analysis) (block next : Block) : FlowEdge.Kind → Prop
  | .branch => ∃ reference ∈ state.references.toList, reference.kind.isCall = false ∧
      ∃ source target place, reference.source = some source ∧ reference.target = some target ∧
        state.program.resolve source = some place ∧ LastOf decoder state.program block place ∧
        state.program.resolve target = some next.first
  | .call => ∃ reference ∈ state.references.toList, reference.kind.isCall = true ∧
      ∃ source target place, reference.source = some source ∧ reference.target = some target ∧
        state.program.resolve source = some place ∧ block.contains place = true ∧
        state.program.resolve target = some next.first
  | .fallThrough => FallsOut state.settings block ∧ next.first = block.behind

theorem Justifies.explains {decoder : Decoder} {state : Analysis} {edge : FlowEdge}
    (justifies : state.Justifies edge) (ordered : state.blocks.Ordered)
    (last : ∀ reference ∈ state.references.toList, reference.kind.isCall = false →
      ∀ source place block, reference.source = some source →
        state.program.resolve source = some place → block ∈ state.blocks.blocks →
        block.contains place = true → LastOf decoder state.program block place) :
    ∃ block ∈ state.blocks.blocks, ∃ next ∈ state.blocks.blocks,
      edge.source = block.first ∧ edge.target = next.first ∧
        Explains decoder state block next edge.kind := by
  cases justifies with
  | @reference reference recorded found =>
      obtain ⟨source, target, place, block, next, starts, points, located, member, inside, nextMember,
        aimed, rfl⟩ := (referenceEdge_eq_ok_iff ordered).mp found
      refine ⟨block, member, next, nextMember, rfl, rfl, ?_⟩
      cases call : reference.kind.isCall with
      | true =>
          rw [FlowEdge.ofReference, call]
          exact ⟨reference, recorded, call, source, target, place, starts, points, located, inside,
            aimed⟩
      | false =>
          rw [FlowEdge.ofReference, call]
          exact ⟨reference, recorded, call, source, target, place, starts, points, located,
            last reference recorded call source place block starts located member inside, aimed⟩
  | @neighbour block member found =>
      obtain ⟨runs, next, nextMember, adjoins, rfl⟩ := (fallThroughEdge?_eq_some_iff ordered).mp found
      exact ⟨block, member, next, nextMember, rfl, rfl, runsOn_iff.mp runs, adjoins⟩

/-- Edges lead from block to block. A branch leaves with the last instruction of its block, a call
with any of its instructions, and a block that runs on leads to the one behind it. No edge occurs
twice, and none of those that references and neighbouring blocks stand for is missing. -/
theorem linkBlocks_edges {program : Program} {decoder : Decoder} (built : program.Built)
    (placed : decoder.Placed)
    (steady : decoder.Steady fun instruction => (instruction.length, instruction.flow))
    (settings : Settings) (entries : List EntryPoint) :
    let found := findBlocks decoder (.fresh program settings) entries
    let linked := found.state.linkBlocks
    let final := linked.state
    found.fault = none ∧ linked.fault = none ∧ final.flow.edges.Nodup ∧
    (∀ edge ∈ final.flow.edges, ∃ block ∈ final.blocks.blocks, ∃ next ∈ final.blocks.blocks,
      edge.source = block.first ∧ edge.target = next.first ∧
        Explains decoder final block next edge.kind) ∧
    (∀ reference ∈ final.references.toList, ∀ source target, reference.source = some source →
      reference.target = some target → ∀ next ∈ final.blocks.blocks,
      program.resolve target = some next.first →
      ∃ block ∈ final.blocks.blocks, ∃ place, program.resolve source = some place ∧
        block.contains place = true ∧
        FlowEdge.ofReference block.first next.first reference.kind ∈ final.flow.edges) ∧
    (∀ block ∈ final.blocks.blocks, ∀ next ∈ final.blocks.blocks, FallsOut settings block →
      next.first = block.behind →
      FlowEdge.ofFallThrough block.first next.first ∈ final.flow.edges) := by
  intro found linked final
  obtain ⟨faultless, linkedFaultless, flow, done, -, linkedEdges⟩ :=
    linkBlocks_findBlocks built.regular placed settings entries
  have start : Reached decoder program settings (.fresh program settings) := .refl
  obtain ⟨-, reached⟩ := start.findBlocks built.regular placed entries
  obtain ⟨readings, finished, ledger⟩ := findBlocks_ledger built.regular placed settings entries
  have sound := reached.sound built.regular placed
  have ordered : found.state.blocks.Ordered := sound.owned.ordered
  have remarked : program.Remarked found.state.program := sound.owned.remarked
  have tiled := Tiled.steps built.regular placed reached
  have same : final = { found.state with flow } := congrArg Outcome.state done
  have distinct : final.flow.edges.Nodup :=
    nodup_linkBlocks (by rw [flow_findBlocks_fresh]; exact List.nodup_nil)
  refine ⟨faultless, linkedFaultless, distinct, ?_⟩
  rw [same]
  refine ⟨fun edge member => ?_, fun reference recorded source target starts points next nextMember
    aimed => ?_, fun block member next nextMember falls adjoins => ?_⟩
  · exact ((linkedEdges edge).mp member).explains ordered fun reference recorded noCall _ _ _ starts
      located member inside =>
        ledger.lastOf remarked tiled placed steady recorded noCall starts located member inside
  · obtain ⟨reading, read, rfl, -⟩ := ledger.source_read recorded starts
    have located := (ledger.read reading read).located
    have reachedSource := (remarked.resolve reading.here).trans located
    -- The source is code that the search has found, and all of that is in blocks by now.
    have gains := (sound.grounded reference (.recorded recorded)).2 _ starts _ reachedSource
    obtain ⟨block, member, inside⟩ := ((sound.owned.code _).mp gains).resolve_right id
    have edge : found.state.referenceEdge reference = .ok _ :=
      (referenceEdge_eq_ok_iff ordered).mpr ⟨_, _, _, block, next, starts, points, reachedSource,
        member, inside, nextMember, (remarked.resolve target).trans aimed, rfl⟩
    exact ⟨block, member, reading.place, located, inside,
      (linkedEdges _).mpr (.reference recorded edge)⟩
  · have runs : found.state.runsOn block = true :=
      runsOn_iff.mpr (by rw [ledger.configured]; exact falls)
    exact (linkedEdges _).mpr (.neighbour member
      ((fallThroughEdge?_eq_some_iff ordered).mpr ⟨runs, next, nextMember, adjoins, rfl⟩))

/-- The conditional jump over one instruction is an edge, and so is the way out of that instruction. -/
theorem sample_linkBlocks_edges :
    let final := (findBlocks sampleDecoder (.fresh sample {}) [sampleEntry]).state.linkBlocks.state
    sample.Built ∧ sampleDecoder.Placed ∧
      sampleDecoder.Steady (fun instruction => (instruction.length, instruction.flow)) ∧
      ⟨⟨0, 0⟩, ⟨0, 4⟩, .branch, some .conditionalJump⟩ ∈ final.flow.edges ∧
      (∃ block ∈ final.blocks.blocks, ∃ next ∈ final.blocks.blocks,
        (⟨0, 0⟩ : Place) = block.first ∧ (⟨0, 4⟩ : Place) = next.first ∧
          Explains sampleDecoder final block next .branch) ∧
      FlowEdge.ofFallThrough ⟨0, 2⟩ ⟨0, 4⟩ ∈ final.flow.edges := by
  intro final
  have steady := Script.decoder_steady sampleRows
  have branch : ⟨⟨0, 0⟩, ⟨0, 4⟩, .branch, some .conditionalJump⟩ ∈ final.flow.edges := by
    decide +kernel
  have falls : (⟨0, 2, 4, .fallThrough⟩ : Block) ∈ final.blocks.blocks := by decide +kernel
  have next : (⟨0, 4, 8, .terminated⟩ : Block) ∈ final.blocks.blocks := by decide +kernel
  obtain ⟨-, -, -, explained, -, neighbours⟩ :=
    linkBlocks_edges sample_built sampleDecoder_placed steady {} [sampleEntry]
  exact ⟨sample_built, sampleDecoder_placed, steady, branch, explained _ branch,
    neighbours _ falls _ next (.inl rfl) rfl⟩

end RealMode.Analysis
