import RealMode.Proofs.Analysis.Coverage
import RealMode.Proofs.Analysis.Geometry

/-! The order of entry points does not matter where nothing is in the way of anything else.

Two searches for what the same entry points lead to have then read the same instructions. The blocks
are told by these instructions, by where tasks lead and by what starts behind a block, and the edges
by blocks and references. -/

set_option autoImplicit false

namespace RealMode.Analysis

/-- A search has come to its end without reaching a limit. -/
def Concluded (state : Analysis) : Prop :=
  state.pending.toList = [] ∧ state.instructions < state.settings.maxInstructions

theorem raised_subset {origin : Program} {settings : Settings} {entries others : List EntryPoint}
    {readings otherReadings : List Reading} (entered : entries ⊆ others)
    (read : readings ⊆ otherReadings) :
    raised origin settings entries readings [] ⊆ raised origin settings others otherReadings [] := by
  intro task listed
  simp only [raised, entryTasks, List.flatMap_nil, List.append_nil, List.mem_append, List.mem_map,
    List.mem_flatMap] at listed ⊢
  rcases listed with ⟨entry, member, same⟩ | ⟨reading, member, departs⟩
  · exact .inl ⟨entry, entered member, same⟩
  · exact .inr ⟨reading, read member, departs⟩

theorem Justifies.of_subset {state other : Analysis} {edge : FlowEdge}
    (justifies : state.Justifies edge) (ordered : state.blocks.Ordered)
    (otherOrdered : other.blocks.Ordered)
    (resolve : ∀ address, other.program.resolve address = state.program.resolve address)
    (settings : other.settings = state.settings)
    (blocks : state.blocks.blocks ⊆ other.blocks.blocks)
    (references : state.references.toList ⊆ other.references.toList) : other.Justifies edge := by
  cases justifies with
  | reference recorded found =>
      obtain ⟨source, target, place, block, next, starts, points, located, member, inside, nextMember,
        aimed, same⟩ := (referenceEdge_eq_ok_iff ordered).mp found
      exact .reference (references recorded) ((referenceEdge_eq_ok_iff otherOrdered).mpr
        ⟨source, target, place, block, next, starts, points, (resolve source).trans located,
          blocks member, inside, blocks nextMember, (resolve target).trans aimed, same⟩)
  | neighbour member found =>
      obtain ⟨runs, next, nextMember, adjoins, same⟩ :=
        (fallThroughEdge?_eq_some_iff ordered).mp found
      refine .neighbour (blocks member) ((fallThroughEdge?_eq_some_iff otherOrdered).mpr
        ⟨?_, next, blocks nextMember, adjoins, same⟩)
      rw [runsOn_iff] at runs ⊢
      rwa [settings]

namespace Complete

variable {decoder : Decoder} {origin : Program} {settings : Settings}
  {entries others : List EntryPoint} {readings otherReadings : List Reading}
  {finished otherFinished : List Task} {state other : Analysis}

section Pair

variable (complete : Complete decoder origin settings entries readings finished state)
  (second : Complete decoder origin settings others otherReadings otherFinished other)

include complete second

/-- An instruction of the first search that the second one has not read is wholly unknown to it, if
it reads nothing else. -/
theorem unknown_of_idle (fewer : otherReadings ⊆ readings) {reading : Reading}
    (member : reading ∈ readings)
    (idle : (other.program.marksAt reading.place).startsCode = false) {byte : Nat}
    (low : reading.place.offset ≤ byte) (high : byte < reading.instruction.stop) :
    (other.program.marksAt ⟨reading.place.image, byte⟩).isUnknown = true := by
  obtain ⟨stands, offset⟩ := complete.stands_of_reading member
  by_contra known
  obtain ⟨block, blockMember, inside⟩ := second.block_of_known (Bool.eq_false_iff.mpr known)
  obtain ⟨sameImage, above, below⟩ := Block.contains_iff.mp inside
  obtain ⟨leading, last, tiles, -⟩ := second.tiled.blocks block blockMember
  obtain ⟨tile, tileMember, tileLow, tileHigh⟩ := tiles.covers above below
  obtain ⟨found, foundMember, place, rfl⟩ := second.reading_of_stands (tiles.stand tile tileMember)
  obtain ⟨alsoStands, foundOffset⟩ := complete.stands_of_reading (fewer foundMember)
  have image : found.place.image = reading.place.image := by
    rw [place]
    exact sameImage.symm
  rw [image] at alsoStands
  have same := complete.eq_of_stands stands alsoStands (offset ▸ low) high tileLow tileHigh
  have starts := second.startsCode_iff.mpr ⟨found, foundMember, rfl⟩
  have samePlace : found.place = reading.place := by
    rw [Place.mk.injEq]
    exact ⟨image, by rw [← foundOffset, ← offset, same]⟩
  rw [samePlace, idle] at starts
  cases starts

/-- Where the first search has read everything, nothing was in the way of the second one. -/
theorem clear_of_covered
    (covered : ∀ reading, Findable decoder.pinned origin others reading → reading ∈ readings) :
    Clear decoder.pinned origin others other := by
  intro reading findable barred _
  have member := covered reading findable
  have fewer : otherReadings ⊆ readings := fun found read => covered found (second.findable read)
  obtain ⟨stands, offset⟩ := complete.stands_of_reading member
  obtain ⟨place, image, reached, -, found, decoded⟩ := findable.decodes
  obtain rfl := Option.some.inj (reached.symm.trans findable.located)
  obtain ⟨later, laterFound, blank⟩ := complete.sound.owned.remarked.exists_image found
  obtain ⟨last, lastFound, lastBlank⟩ := second.sound.owned.remarked.exists_image found
  have refused := barred.refused last lastFound reading.here.offset reading.instruction
    ((second.inside.blind.pinned last image _ _ lastBlank).trans decoded)
  rw [Bool.eq_false_iff] at refused
  refine refused (Image.isUnattributed_iff.mpr ⟨?_, ?_, fun index low high => ?_⟩)
  · have size : last.size = later.size := congrArg (·.size) (lastBlank.trans blank.symm)
    rw [(second.sound.regular second.inside.regular).covered lastFound, size]
    exact complete.stop_le_size member laterFound
  · exact offset ▸ Nat.le_of_lt stands.offset_lt_stop
  · have unknown := complete.unknown_of_idle second fewer member barred.idle low high
    rwa [Program.marksAt, lastFound] at unknown

theorem mem_readings_iff (same : ∀ entry, entry ∈ others ↔ entry ∈ entries)
    (clear : Clear decoder.pinned origin entries state) (reading : Reading) :
    reading ∈ otherReadings ↔ reading ∈ readings := by
  have covered (reading : Reading) (findable : Findable decoder.pinned origin others reading) :
      reading ∈ readings :=
    complete.mem_of_findable clear
      ⟨findable.sought.of_subset fun entry => (same entry).mp, findable.decodes, findable.located⟩
  refine ⟨fun member => covered reading (second.findable member), fun member => ?_⟩
  have findable := complete.findable member
  exact second.mem_of_findable (complete.clear_of_covered second covered)
    ⟨findable.sought.of_subset fun entry => (same entry).mpr, findable.decodes, findable.located⟩

theorem startsCode_eq (alike : ∀ reading, reading ∈ otherReadings ↔ reading ∈ readings)
    (place : Place) : (other.program.marksAt place).startsCode =
      (state.program.marksAt place).startsCode := by
  rw [Bool.eq_iff_iff, complete.startsCode_iff, second.startsCode_iff]
  simp only [alike]

/-- Blocks start where tasks lead to, and the tasks are the same. -/
theorem exists_first (entered : entries ⊆ others) (read : readings ⊆ otherReadings) {block : Block}
    (member : block ∈ state.blocks.blocks) :
    ∃ next ∈ other.blocks.blocks, next.first = block.first := by
  obtain ⟨task, done | busy, target, points, reached⟩ := complete.survey.starts block member
  · have listed := raised_subset entered read (complete.mem_finished_iff.mp done)
    obtain ⟨-, settled⟩ :=
      second.survey.followed task (second.mem_finished_iff.mpr listed) target points
    have reachedThere : other.program.resolve target = some block.first := by
      rw [second.sound.owned.remarked.resolve, ← complete.sound.owned.remarked.resolve, reached]
    rcases settled _ reachedThere (second.inside.flat.unknown _) with starts | barred
    · exact starts
    · have starts := (complete.tiled.blocks block member).startsCode_first
      obtain ⟨reading, readingMember, place⟩ := complete.startsCode_iff.mp starts
      have startsThere := second.startsCode_iff.mpr ⟨reading, read readingMember, place⟩
      rw [barred.idle] at startsThere
      cases startsThere
  · cases busy

/-- Of two blocks that start at the same place, the first does not end before the second. -/
theorem stop_le (alike : ∀ reading, reading ∈ otherReadings ↔ reading ∈ readings)
    (leads : ∀ block ∈ state.blocks.blocks, ∃ next ∈ other.blocks.blocks, next.first = block.first)
    {block next : Block} (member : block ∈ state.blocks.blocks)
    (nextMember : next ∈ other.blocks.blocks) (same : next.first = block.first) :
    next.stop ≤ block.stop := by
  by_contra longer
  obtain ⟨sameImage, sameStart⟩ : next.image = block.image ∧ next.start = block.start :=
    Place.mk.inj same
  obtain ⟨reading, read, within, stop⟩ := complete.exists_last member
  obtain ⟨image, low, high⟩ := Block.contains_iff.mp within
  have withinNext : next.contains reading.place = true :=
    Block.contains_iff.mpr ⟨image.trans sameImage.symm, by omega, by omega⟩
  -- The last instruction of the shorter block is not the last one of the longer block.
  obtain ⟨runs, startsThere⟩ :=
    second.runs_behind nextMember ((alike reading).mpr read) withinNext (by omega)
  rw [complete.startsCode_eq second alike, sameImage, stop] at startsThere
  have starts : (state.program.marksAt block.behind).startsCode = true := startsThere
  -- So the shorter block falls through to another one, which lies within the longer one.
  have fits : ¬65536 ≤ reading.instruction.stop :=
    stop ▸ Nat.not_le_of_lt (complete.offset_lt starts)
  have exit : block.exit = .fallThrough := by
    rw [complete.exit_eq member read within stop]
    simp [exitBehind, runs, Flow.leaves_of_runsOn runs, starts, fits]
  obtain ⟨behind, behindMember, adjoins⟩ := complete.exists_behind member exit
  obtain ⟨third, thirdMember, sameFirst⟩ := leads behind behindMember
  have ordered : other.blocks.Ordered := second.sound.owned.ordered
  have inside : next.contains third.first = true := by
    rw [sameFirst, adjoins]
    exact Block.contains_iff.mpr ⟨sameImage.symm, by dsimp only [Block.behind]; omega,
      by dsimp only [Block.behind]; omega⟩
  obtain rfl := ordered.eq_of_contains nextMember thirdMember inside
    (ordered.contains_first thirdMember)
  have back : block.start = block.stop :=
    (Place.mk.inj ((same.symm.trans sameFirst).trans adjoins)).2
  omega

end Pair

/-- Of two searches for the same that have read the same, the second has all blocks of the first. -/
theorem block_mem (complete : Complete decoder origin settings entries readings finished state)
    (second : Complete decoder origin settings others otherReadings otherFinished other)
    (same : ∀ entry, entry ∈ others ↔ entry ∈ entries)
    (alike : ∀ reading, reading ∈ otherReadings ↔ reading ∈ readings) {block : Block}
    (member : block ∈ state.blocks.blocks) : block ∈ other.blocks.blocks := by
  have leads (block : Block) (listed : block ∈ state.blocks.blocks) :=
    complete.exists_first second (fun entry => (same entry).mpr) (fun reading => (alike reading).mpr)
      listed
  have back (block : Block) (listed : block ∈ other.blocks.blocks) :=
    second.exists_first complete (fun entry => (same entry).mp) (fun reading => (alike reading).mp)
      listed
  obtain ⟨next, nextMember, first⟩ := leads block member
  have stop : next.stop = block.stop := Nat.le_antisymm
    (complete.stop_le second alike leads member nextMember first)
    (second.stop_le complete (fun reading => (alike reading).symm) back nextMember member first.symm)
  obtain ⟨image, start⟩ : next.image = block.image ∧ next.start = block.start := Place.mk.inj first
  obtain ⟨reading, read, within, ends⟩ := complete.exists_last member
  have withinNext : next.contains reading.place = true := by
    rw [Block.contains_iff, image, start, stop]
    exact Block.contains_iff.mp within
  have behind : next.behind = block.behind := by rw [Block.behind, Block.behind, image, stop]
  have exit : next.exit = block.exit := by
    rw [second.exit_eq nextMember ((alike reading).mpr read) withinNext (ends.trans stop.symm),
      complete.exit_eq member read within ends, behind, complete.startsCode_eq second alike]
  obtain ⟨_, _, _, _⟩ := block
  obtain ⟨_, _, _, _⟩ := next
  dsimp only at image start stop exit
  subst image start stop exit
  exact nextMember

theorem references_perm (complete : Complete decoder origin settings entries readings finished state)
    (second : Complete decoder origin settings others otherReadings otherFinished other)
    (permuted : others.Perm entries)
    (alike : ∀ reading, reading ∈ otherReadings ↔ reading ∈ readings) :
    other.references.toList.Perm state.references.toList := by
  have ledger := complete.survey.ledger
  have secondLedger := second.survey.ledger
  have read : otherReadings.Perm readings :=
    (List.perm_ext_iff_of_nodup (.of_map _ secondLedger.distinct)
      (.of_map _ ledger.distinct)).mpr alike
  have own := ledger.drained_references complete.drained
  have there := secondLedger.drained_references second.drained
  rw [ledger.slots_eq_nil complete.inside.tables] at own
  rw [secondLedger.slots_eq_nil second.inside.tables] at there
  refine there.trans (.trans ?_ own.symm)
  exact ((permuted.map _).append (read.flatMap_right _)).append_right _

theorem justifies_iff (complete : Complete decoder origin settings entries readings finished state)
    (second : Complete decoder origin settings others otherReadings otherFinished other)
    (blocks : ∀ block, block ∈ other.blocks.blocks ↔ block ∈ state.blocks.blocks)
    (references : other.references.toList.Perm state.references.toList) {edge : FlowEdge} :
    other.Justifies edge ↔ state.Justifies edge := by
  have ordered : state.blocks.Ordered := complete.sound.owned.ordered
  have otherOrdered : other.blocks.Ordered := second.sound.owned.ordered
  have resolve (address : Address) : other.program.resolve address = state.program.resolve address :=
    (second.sound.owned.remarked.resolve address).trans
      (complete.sound.owned.remarked.resolve address).symm
  have configured : other.settings = state.settings :=
    second.survey.ledger.configured.trans complete.survey.ledger.configured.symm
  constructor
  · exact fun justifies => justifies.of_subset otherOrdered ordered
      (fun address => (resolve address).symm) configured.symm (fun block => (blocks block).mp)
      references.subset
  · exact fun justifies => justifies.of_subset ordered otherOrdered resolve configured
      (fun block => (blocks block).mpr) references.symm.subset

end Complete

theorem findBlocks_complete {program : Program} {decoder : Decoder} {settings : Settings}
    {entries : List EntryPoint} (inside : InSegment decoder program settings entries)
    (concluded : (findBlocks decoder (.fresh program settings) entries).state.Concluded) :
    ∃ readings finished, Complete decoder program settings entries readings finished
      (findBlocks decoder (.fresh program settings) entries).state := by
  have start : Reached decoder program settings (.fresh program settings) := .refl
  obtain ⟨readings, finished, survey⟩ :=
    Survey.of_proceeds inside (start.proceeds inside.regular inside.placed entries).2
  obtain ⟨drained, room⟩ := concluded
  rw [survey.ledger.configured] at room
  exact ⟨readings, finished, inside, survey, drained, room⟩

/-- The bytes of the sample, none of which is known. -/
def plainSample : Program where
  images := #[.fresh 0 "code" sampleBytes]
  segments := [⟨0, "text", "CODE", 0, 0, 14⟩]
  groups := []
  externals := []
  publics := []
  frameBase := none

theorem plainSample_built : plainSample.Built :=
  (Program.Built.empty.addImage "code" sampleBytes).addSegment "text" "CODE" 0 0 14

theorem plainSample_flat : plainSample.Flat := by
  refine ⟨⟨_, rfl, rfl, rfl⟩, fun ⟨image, offset⟩ => ?_⟩
  cases image with
  | zero =>
      change ((Image.fresh 0 "code" sampleBytes).marksAt offset).isUnknown = true
      rw [Image.marksAt_fresh]
      rfl
  | succ image =>
      have outside : plainSample.contains ⟨image + 1, offset⟩ = false := by
        simp [Program.contains, Program.image?, plainSample]
      rw [plainSample_built.regular.marksAt_of_outside outside]
      rfl

def entryAt (offset : UInt16) : EntryPoint := ⟨⟨.segment 0, offset⟩, none, .near⟩

/-- Entry points of a program in one segment can be followed in any order, as long as the search comes
to its end and none of its findings is about code in the way. -/
theorem linkBlocks_entry_order {program : Program} {decoder : Decoder} {settings : Settings}
    {entries others : List EntryPoint} (built : program.Built) (flat : program.Flat)
    (placed : decoder.Placed) (blind : decoder.Blind) (stays : decoder.Local)
    (tables : settings.jumpTables = false)
    (home : ∀ entry ∈ entries, entry.address.referent = .segment 0) (permuted : others.Perm entries)
    (concluded : (findBlocks decoder (.fresh program settings) entries).state.Concluded)
    (otherConcluded : (findBlocks decoder (.fresh program settings) others).state.Concluded)
    (undisturbed :
      ∀ diagnostic ∈ (findBlocks decoder (.fresh program settings) entries).state.diagnostics,
        diagnostic.code ≠ .ranIntoCode ∧ diagnostic.code ≠ .overlappingInstruction) :
    let found := findBlocks decoder (.fresh program settings) entries
    let again := findBlocks decoder (.fresh program settings) others
    let linked := found.state.linkBlocks
    let relinked := again.state.linkBlocks
    (found.fault = none ∧ linked.fault = none) ∧ (again.fault = none ∧ relinked.fault = none) ∧
    (∀ block, block ∈ relinked.state.blocks.blocks ↔ block ∈ linked.state.blocks.blocks) ∧
    (∀ edge, edge ∈ relinked.state.flow.edges ↔ edge ∈ linked.state.flow.edges) ∧
    relinked.state.references.toList.Perm linked.state.references.toList := by
  intro found again linked relinked
  have inside : InSegment decoder program settings entries :=
    ⟨built.regular, flat, placed, blind, stays, tables, home⟩
  have otherInside : InSegment decoder program settings others :=
    ⟨built.regular, flat, placed, blind, stays, tables,
      fun entry member => home entry (permuted.mem_iff.mp member)⟩
  obtain ⟨readings, finished, complete⟩ := findBlocks_complete inside concluded
  obtain ⟨otherReadings, otherFinished, second⟩ := findBlocks_complete otherInside otherConcluded
  have same (entry : EntryPoint) : entry ∈ others ↔ entry ∈ entries := permuted.mem_iff
  have alike := complete.mem_readings_iff second same (complete.clear_of_reports undisturbed)
  have blocks (block : Block) :
      block ∈ again.state.blocks.blocks ↔ block ∈ found.state.blocks.blocks :=
    ⟨second.block_mem complete (fun entry => (same entry).symm) fun reading => (alike reading).symm,
      complete.block_mem second same alike⟩
  have references := complete.references_perm second permuted alike
  obtain ⟨faultless, linkedFaultless, flow, done, -, edges⟩ :=
    linkBlocks_findBlocks built.regular placed settings entries
  obtain ⟨againFaultless, relinkedFaultless, otherFlow, otherDone, -, otherEdges⟩ :=
    linkBlocks_findBlocks built.regular placed settings others
  have final : linked.state = { found.state with flow } := congrArg Outcome.state done
  have otherFinal : relinked.state = { again.state with flow := otherFlow } :=
    congrArg Outcome.state otherDone
  refine ⟨⟨faultless, linkedFaultless⟩, ⟨againFaultless, relinkedFaultless⟩, ?_⟩
  rw [final, otherFinal]
  refine ⟨blocks, fun edge => ?_, references⟩
  rw [otherEdges edge, edges edge]
  exact complete.justifies_iff second blocks references

/-- The block from the second instruction on is cut in the first search and falls through in the
other. -/
theorem plainSample_linkBlocks_entry_order :
    let settings : Settings := { jumpTables := false }
    let entries := [entryAt 2, entryAt 4, entryAt 0]
    let others := [entryAt 0, entryAt 4, entryAt 2]
    let final := (findBlocks sampleDecoder (.fresh plainSample settings) others).state.linkBlocks.state
    plainSample.Built ∧ plainSample.Flat ∧ sampleDecoder.Placed ∧ sampleDecoder.Blind ∧
      sampleDecoder.Local ∧ others.Perm entries ∧
      (findBlocks sampleDecoder (.fresh plainSample settings) entries).state.Concluded ∧
      (findBlocks sampleDecoder (.fresh plainSample settings) others).state.Concluded ∧
      ⟨0, 2, 4, .fallThrough⟩ ∈ final.blocks.blocks ∧
      FlowEdge.ofFallThrough ⟨0, 2⟩ ⟨0, 4⟩ ∈ final.flow.edges ∧
      final.references.toList.length = 6 := by
  intro settings entries others final
  have blind : sampleDecoder.Blind := Script.decoder_blind sampleRows
  have stays : sampleDecoder.Local := Script.decoder_local (by decide)
  have permuted : others.Perm entries := by decide
  have concluded : (findBlocks sampleDecoder (.fresh plainSample settings) entries).state.Concluded :=
    ⟨by decide +kernel, by decide +kernel⟩
  have otherConcluded :
      (findBlocks sampleDecoder (.fresh plainSample settings) others).state.Concluded :=
    ⟨by decide +kernel, by decide +kernel⟩
  obtain ⟨-, -, blocks, edges, references⟩ := linkBlocks_entry_order plainSample_built
    plainSample_flat sampleDecoder_placed blind stays rfl (by decide) permuted concluded
    otherConcluded (by decide +kernel)
  refine ⟨plainSample_built, plainSample_flat, sampleDecoder_placed, blind, stays, permuted,
    concluded, otherConcluded, (blocks _).mpr ?_, (edges _).mpr ?_, references.length_eq.trans ?_⟩ <;>
  decide +kernel

end RealMode.Analysis
