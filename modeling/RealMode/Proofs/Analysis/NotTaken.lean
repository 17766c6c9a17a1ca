import RealMode.Proofs.Analysis.Echoes
import RealMode.Proofs.Analysis.Geometry
import RealMode.Proofs.Analysis.Successors

/-! The path of a conditional jump that is not taken.

It may be recorded as a reference or left to the end of the block that the jump closes. All that has
been found is the same in both cases, and so are the blocks between which control passes, once all
tasks are done. -/

set_option autoImplicit false

namespace RealMode.Analysis

/-- The reference from a conditional jump to the address behind it. -/
def notTaken (instruction : Instruction) (here : Address) : List Reference :=
  match instruction.flow with
  | .conditionalJump =>
      (following? instruction here).toList.map fun next =>
        ⟨some here, some next, .conditionalJump, none⟩
  | _ => []

theorem mem_notTaken_iff {instruction : Instruction} {here : Address} {reference : Reference} :
    reference ∈ notTaken instruction here ↔ instruction.flow = .conditionalJump ∧
      ∃ next, following? instruction here = some next ∧
        reference = ⟨some here, some next, .conditionalJump, none⟩ := by
  unfold notTaken
  cases instruction.flow <;> cases following? instruction here <;> simp

/-- The references that a search leaves. Those of paths that are not taken are marked as such. -/
def recordable (program : Program) (settings : Settings) (entries : List EntryPoint)
    (readings : List Reading) (slots : List ConsumedSlot) : List Task :=
  entries.map (fun entry => .recorded (.toEntry entry.address)) ++
    readings.flatMap (fun reading =>
      (instructionReferences program settings reading.instruction reading.here).map .recorded ++
        (notTaken reading.instruction reading.here).map (⟨·, false⟩)) ++
    slots.map fun slot => .recorded (slotReference program slot)

section Recordable

variable {program : Program} {settings : Settings} {entries : List EntryPoint}
  {readings : List Reading} {slots : List ConsumedSlot}

theorem departures_ready (silent : settings.recordFallThrough = false) (instruction : Instruction)
    (here : Address) :
    ((fresh program settings).departures instruction here).filter isReady =
      (instructionReferences program settings instruction here).map .recorded ++
        (notTaken instruction here).map (⟨·, false⟩) := by
  have branches (kind : Reference.Kind) :
      isReady (branchTask (fresh program settings).program instruction here kind) = true := by
    simp [isReady, awaitsSlot, branchTask, Task.recorded]
  unfold departures instructionReferences notTaken
  cases flow : instruction.flow with
  | next | interrupt | ret | halt => rfl
  | call far =>
      simp only [List.filter_cons, branches]
      rfl
  | jump far =>
      rw [← isSome_tableOf? flow]
      dsimp only
      cases table : (fresh program settings).tableOf? instruction here far with
      | some slot => rfl
      | none =>
          simp only [List.filter_cons, branches]
          rfl
  | conditionalJump =>
      simp only [List.filter_cons, branches]
      cases following? instruction here <;>
        simp [isReady, awaitsSlot, branchTask, Task.recorded, fresh, silent]

theorem raised_ready (silent : settings.recordFallThrough = false)
    (words : ∀ slot ∈ slots, (program.word? slot.place).isSome = true) :
    (raised program settings entries readings slots).filter isReady =
      recordable program settings entries readings slots := by
  have entered : (entryTasks entries).filter isReady = entryTasks entries := by
    refine List.filter_eq_self.mpr fun task member => ?_
    obtain ⟨entry, -, rfl⟩ := List.mem_map.mp member
    rfl
  have consumed : (slots.flatMap fun slot => (slotTasks program slot).filter isReady) =
      slots.map fun slot => .recorded (slotReference program slot) := by
    rw [List.map_eq_flatMap]
    exact List.flatMap_congr fun slot member => slotTasks_ready (words slot member)
  simp only [raised, recordable, List.filter_append, List.filter_flatMap, entered, consumed,
    departures_ready silent]
  rfl

end Recordable

section Log

variable {decoder : Decoder} {program : Program} {own settings : Settings}
  {entries : List EntryPoint} {readings : List Reading} {finished : List Task}
  {quiet loud : Analysis}

theorem unrecorded_mem_recordable_iff {slots : List ConsumedSlot} {reference : Reference} :
    ⟨reference, false⟩ ∈ recordable program own entries readings slots ↔
      ∃ reading ∈ readings, reference ∈ notTaken reading.instruction reading.here := by
  simp [recordable, Task.recorded]

namespace Chronicle

variable (chronicle : Chronicle decoder program own entries readings finished ⟨quiet, .idle⟩)
  (silent : own.recordFallThrough = false)

include chronicle

theorem references_eq : quiet.references.toList =
    ((finished.filter isReady).filter Task.isRecorded).map Task.reference := by
  rw [← filter_leavesReference]
  exact chronicle.ledger.recorded

include silent

/-- What has been done, together with what waits, is what there is to record. -/
theorem recordable_perm :
    (finished.filter isReady ++ quiet.pending.toList.filter isReady).Perm
      (recordable program own entries readings quiet.slots) := by
  have account := chronicle.ledger.account.filter isReady
  rw [raised_ready silent fun slot member => (chronicle.ledger.slots slot member).1] at account
  simpa [Activity.task?] using account

theorem notTaken_of_unrecorded {task : Task} (member : task ∈ finished.filter isReady)
    (unrecorded : task.isRecorded = false) :
    ∃ reading ∈ readings, task.reference ∈ notTaken reading.instruction reading.here := by
  have listed := (chronicle.recordable_perm silent).mem_iff.mp (List.mem_append_left _ member)
  obtain ⟨reference, isRecorded⟩ := task
  obtain rfl : isRecorded = false := unrecorded
  exact unrecorded_mem_recordable_iff.mp listed

/-- Both searches have recorded the same calls. -/
theorem calls_eq (echoes : Echoes settings finished quiet loud) :
    loud.references.toList.filter (·.kind.isCall) =
      quiet.references.toList.filter (·.kind.isCall) := by
  rw [echoes.recorded, chronicle.references_eq, List.filter_map, List.filter_map]
  refine congrArg _ (.trans (List.filter_congr fun task member => ?_) List.filter_filter.symm)
  -- Only paths that are not taken are left out, and none of them is a call.
  cases recorded : task.isRecorded with
  | true => simp
  | false =>
      obtain ⟨reading, -, left⟩ := chronicle.notTaken_of_unrecorded silent member recorded
      obtain ⟨-, next, -, same⟩ := mem_notTaken_iff.mp left
      simp [same, Reference.Kind.isCall]

/-- When all is done, the paths not taken are what one search has recorded and the other has not. -/
theorem mem_references_iff (echoes : Echoes settings finished quiet loud)
    (drained : quiet.pending.toList = []) {reference : Reference} :
    reference ∈ loud.references.toList ↔ reference ∈ quiet.references.toList ∨
      ∃ reading ∈ readings, reference ∈ notTaken reading.instruction reading.here := by
  have account := chronicle.recordable_perm silent
  rw [drained, List.filter_nil, List.append_nil] at account
  rw [echoes.recorded, chronicle.references_eq]
  constructor
  · intro recorded
    obtain ⟨task, member, rfl⟩ := List.mem_map.mp recorded
    cases kept : task.isRecorded with
    | true => exact .inl (List.mem_map_of_mem (List.mem_filter.mpr ⟨member, kept⟩))
    | false => exact .inr (chronicle.notTaken_of_unrecorded silent member kept)
  · rintro (recorded | omitted)
    · obtain ⟨task, member, rfl⟩ := List.mem_map.mp recorded
      exact List.mem_map_of_mem (List.mem_filter.mp member).1
    · have member := account.mem_iff.mpr (unrecorded_mem_recordable_iff.mpr omitted)
      exact List.mem_map.mpr ⟨_, member, rfl⟩

end Chronicle

end Log

/-- The address behind an instruction that has been read leads to the place behind it. -/
theorem Reading.Holds.resolve_following {reading : Reading} {decoder : Decoder} {origin : Program}
    (holds : reading.Holds decoder origin) (placed : decoder.Placed) {next : Address}
    (ahead : following? reading.instruction reading.here = some next) :
    origin.resolve next = some reading.behind := by
  obtain ⟨image, other, -, -, decoded⟩ := holds.decoded
  obtain ⟨offset, -, short⟩ := placed _ _ _ _ decoded
  have moved := Program.resolve_add? (by omega) holds.located ahead
  rw [moved, Reading.behind, Instruction.stop, offset]
  rfl

theorem Justifies.of_fallsOut {state : Analysis} (ordered : state.blocks.Ordered) {block next : Block}
    (member : block ∈ state.blocks.blocks) (falls : FallsOut state.settings block)
    (nextMember : next ∈ state.blocks.blocks) (adjoins : next.first = block.behind) :
    state.Justifies (.ofFallThrough block.first next.first) :=
  .neighbour member ((fallThroughEdge?_eq_some_iff ordered).mpr
    ⟨runsOn_iff.mpr falls, next, nextMember, adjoins, rfl⟩)

section Flow

variable {decoder : Decoder} {program : Program} {own settings : Settings}
  {entries : List EntryPoint} {readings : List Reading} {finished : List Task}
  {quiet loud : Analysis}

namespace Chronicle

variable (chronicle : Chronicle decoder program own entries readings finished ⟨quiet, .idle⟩)
  (regular : program.Regular) (placed : decoder.Placed)

include chronicle regular placed

/-- The reference of a path not taken stands for the edge behind the block that the jump closes. -/
theorem notTaken_edge_iff {reading : Reading} (read : reading ∈ readings) {reference : Reference}
    (left : reference ∈ notTaken reading.instruction reading.here) {edge : FlowEdge} :
    quiet.referenceEdge reference = .ok (some edge) ↔
      ∃ block ∈ quiet.blocks.blocks, block.contains reading.place = true ∧
        block.exit = .conditional ∧ ∃ next ∈ quiet.blocks.blocks, next.first = block.behind ∧
          edge = .ofReference block.first next.first .conditionalJump := by
  have sound := Sound.steps regular placed chronicle.steps
  have tiled := Tiled.steps regular placed chronicle.steps
  have ordered : quiet.blocks.Ordered := sound.owned.ordered
  obtain ⟨flow, next, ahead, rfl⟩ := mem_notTaken_iff.mp left
  have parts : reading.Parts := ⟨flow, by rw [ahead]; rfl⟩
  have holds := chronicle.ledger.read reading read
  have source : quiet.program.resolve reading.here = some reading.place :=
    (sound.owned.remarked.resolve _).trans holds.located
  have target : quiet.program.resolve next = some reading.behind :=
    (sound.owned.remarked.resolve _).trans (holds.resolve_following placed ahead)
  rw [referenceEdge_eq_ok_iff ordered]
  constructor
  · rintro ⟨_, _, place, block, next, ⟨⟩, ⟨⟩, located, member, inside, nextMember, aimed, rfl⟩
    obtain rfl := Option.some.inj (source.symm.trans located)
    obtain ⟨exit, behind⟩ := chronicle.parted.block_of_jump sound tiled read parts member inside
    have adjoins := Option.some.inj (aimed.symm.trans target)
    exact ⟨block, member, inside, exit, next, nextMember, adjoins.trans behind, rfl⟩
  · rintro ⟨block, member, inside, -, behind, behindMember, adjoins, rfl⟩
    obtain ⟨-, same⟩ := chronicle.parted.block_of_jump sound tiled read parts member inside
    exact ⟨_, _, _, block, behind, rfl, rfl, source, member, inside, behindMember,
      by rw [target, adjoins, same], rfl⟩

section Drained

variable (silent : own.recordFallThrough = false) (records : settings.recordFallThrough = true)
  (echoes : Echoes settings finished quiet loud) (drained : quiet.pending.toList = [])

include silent echoes drained

include records in
/-- An edge that only the reference of a path not taken stands for is the end of a block otherwise. -/
theorem justifies_quiet {edge : FlowEdge} (justifies : loud.Justifies edge) :
    ∃ other, quiet.Justifies other ∧ other.Alike edge := by
  have ordered : quiet.blocks.Ordered := (Sound.steps regular placed chronicle.steps).owned.ordered
  have unrecorded : quiet.settings.recordFallThrough = false :=
    (congrArg Settings.recordFallThrough chronicle.ledger.configured).trans silent
  obtain ⟨recorded, rfl⟩ : ∃ recorded, loud = quiet.recast (loudGuise settings recorded) :=
    ⟨_, echoes.recast⟩
  cases justifies with
  | reference known found =>
      rcases (chronicle.mem_references_iff silent echoes drained).mp known with
        earlier | ⟨reading, read, left⟩
      · exact ⟨edge, .reference earlier found, .refl edge⟩
      · obtain ⟨block, member, -, exit, next, nextMember, adjoins, rfl⟩ :=
          (chronicle.notTaken_edge_iff regular placed read left).mp found
        exact ⟨_, .of_fallsOut ordered member (.inr ⟨exit, unrecorded⟩) nextMember adjoins,
          rfl, rfl, rfl⟩
  | neighbour member found =>
      have loudOrdered : (quiet.recast (loudGuise settings recorded)).blocks.Ordered := ordered
      obtain ⟨runs, next, nextMember, adjoins, rfl⟩ :=
        (fallThroughEdge?_eq_some_iff loudOrdered).mp found
      have exit := (runsOn_iff.mp runs).resolve_right fun parts =>
        Bool.false_ne_true (parts.2.symm.trans records)
      exact ⟨_, .of_fallsOut ordered member (.inl exit) nextMember adjoins, .refl _⟩

/-- The end of a block behind a conditional jump has a reference that stands for it. -/
theorem justifies_loud {edge : FlowEdge} (justifies : quiet.Justifies edge) :
    ∃ other, loud.Justifies other ∧ other.Alike edge := by
  have sound := Sound.steps regular placed chronicle.steps
  have tiled := Tiled.steps regular placed chronicle.steps
  have ordered : quiet.blocks.Ordered := sound.owned.ordered
  obtain ⟨recorded, rfl⟩ : ∃ recorded, loud = quiet.recast (loudGuise settings recorded) :=
    ⟨_, echoes.recast⟩
  cases justifies with
  | reference known found =>
      have alsoKnown := (chronicle.mem_references_iff silent echoes drained).mpr (.inl known)
      exact ⟨edge, .reference alsoKnown found, .refl edge⟩
  | neighbour member found =>
      obtain ⟨runs, next, nextMember, adjoins, rfl⟩ := (fallThroughEdge?_eq_some_iff ordered).mp found
      rcases runsOn_iff.mp runs with exit | ⟨exit, -⟩
      · have loudOrdered : (quiet.recast (loudGuise settings recorded)).blocks.Ordered := ordered
        exact ⟨_, .of_fallsOut loudOrdered member (.inl exit) nextMember adjoins, .refl _⟩
      · obtain ⟨reading, read, ⟨flow, onward⟩, inside, -⟩ :=
          chronicle.parted.jump_of_block sound tiled member exit
        obtain ⟨behind, ahead⟩ := Option.isSome_iff_exists.mp onward
        have left := mem_notTaken_iff.mpr ⟨flow, behind, ahead, rfl⟩
        have known := (chronicle.mem_references_iff silent echoes drained).mpr
          (.inr ⟨reading, read, left⟩)
        exact ⟨_, .reference known ((chronicle.notTaken_edge_iff regular placed read left).mpr
          ⟨_, member, inside, exit, next, nextMember, adjoins, rfl⟩), rfl, rfl, rfl⟩

include records in
/-- Control passes between the same blocks, whether or not the paths not taken are recorded. -/
theorem flow_agrees {quietFlow loudFlow : FlowGraph}
    (quietEdges : ∀ edge, edge ∈ quietFlow.edges ↔ quiet.Justifies edge)
    (loudEdges : ∀ edge, edge ∈ loudFlow.edges ↔ loud.Justifies edge) :
    loudFlow.Agrees quietFlow := by
  refine .of_alike (fun edge member => ?_) fun edge member => ?_
  · obtain ⟨other, justifies, alike⟩ := chronicle.justifies_quiet regular placed silent records echoes
      drained ((loudEdges edge).mp member)
    exact ⟨other, (quietEdges other).mpr justifies, alike⟩
  · obtain ⟨other, justifies, alike⟩ := chronicle.justifies_loud regular placed silent echoes
      drained ((quietEdges edge).mp member)
    exact ⟨other, (loudEdges other).mpr justifies, alike⟩

end Drained

end Chronicle

end Flow

/-- The same procedures are declared with the same findings. They have the same blocks if control
passes between the same blocks. -/
theorem Chronicle.findProcedures_echoes {decoder : Decoder} {program : Program}
    {own settings : Settings} {entries : List EntryPoint} {readings : List Reading}
    {finished : List Task} {quiet loud : Analysis}
    (chronicle : Chronicle decoder program own entries readings finished ⟨quiet, .idle⟩)
    (ordered : quiet.blocks.Ordered) (silent : own.recordFallThrough = false)
    (echoes : Echoes settings finished quiet loud) (quietFlow loudFlow : FlowGraph) :
    let quietLast := ({ quiet with flow := quietFlow } : Analysis).findProcedures.state
    let loudLast := ({ loud with flow := loudFlow } : Analysis).findProcedures.state
    loudLast.diagnostics = quietLast.diagnostics ∧
      (quietFlow.Adjacent → loudFlow.Adjacent → loudFlow.Agrees quietFlow →
        loudLast.procedures = quietLast.procedures ∧ loudLast.items = quietLast.items) := by
  intro quietLast loudLast
  let linked : Analysis := { quiet with flow := quietFlow }
  let guise : Guise :=
    ⟨settings, fun _ => loud.references, Queue.map Task.loud, fun _ => loudFlow⟩
  have recast : { loud with flow := loudFlow } = linked.recast guise :=
    congrArg (fun state : Analysis => { state with flow := loudFlow }) echoes.recast
  have calls : (guise.references linked.references).toList.filter (·.kind.isCall) =
      linked.references.toList.filter (·.kind.isCall) := chronicle.calls_eq silent echoes
  have last : loudLast = (linked.recast guise).findProcedures.state :=
    congrArg (fun state : Analysis => state.findProcedures.state) recast
  rw [last]
  refine ⟨findProcedures_recast_diagnostics calls, fun quietAdjacent loudAdjacent agrees => ?_⟩
  rw [findProcedures_recast calls ordered quietAdjacent loudAdjacent agrees]
  exact ⟨rfl, rfl⟩

/-- Whether the paths not taken are recorded makes no difference to blocks, bytes and findings, nor to
what is left to do. The references are the same but for the paths not taken. If nothing is left to do,
each block has the same successors, and procedures and data items are the same. -/
theorem run_records_not_taken {program : Program} {decoder : Decoder} (built : program.Built)
    (placed : decoder.Placed) (settings : Settings) (entries : List EntryPoint) :
    let silent : Settings := { settings with recordFallThrough := false }
    let quiet := run decoder (.fresh program silent) entries
    let loud := run decoder (.fresh program { settings with recordFallThrough := true }) entries
    quiet.fault = none ∧ loud.fault = none ∧
    loud.state.blocks = quiet.state.blocks ∧ loud.state.program = quiet.state.program ∧
    loud.state.instructions = quiet.state.instructions ∧
    loud.state.diagnostics = quiet.state.diagnostics ∧
    loud.state.pending.toList.map Task.reference = quiet.state.pending.toList.map Task.reference ∧
    (∃ readings log,
      (readings.map Reading.place).Nodup ∧
      (∀ place, (∃ reading ∈ readings, reading.place = place) ↔
        StartsAnew program quiet.state.program place) ∧
      (∀ reading ∈ readings, reading.Holds decoder program) ∧
      loud.state.references.toList = log.map Task.reference ∧
      quiet.state.references.toList = (log.filter Task.isRecorded).map Task.reference ∧
      (log ++ quiet.state.pending.toList.filter isReady).Perm
        (recordable program silent entries readings quiet.state.slots)) ∧
    (quiet.state.pending.toList = [] →
      (∀ place, (loud.state.flow.successors place).Perm (quiet.state.flow.successors place)) ∧
      loud.state.procedures = quiet.state.procedures ∧ loud.state.items = quiet.state.items) := by
  intro silent quiet loud
  let recording : Settings := { settings with recordFallThrough := true }
  have regular := built.regular
  have start : Reached decoder program silent (.fresh program silent) := .refl
  have loudStart : Reached decoder program recording (.fresh program recording) := .refl
  have derived := run_derived regular placed start entries
  have loudDerived := run_derived regular placed loudStart entries
  have reached := (start.findBlocks regular placed entries).reached
  have ordered := (reached.sound regular placed).owned.ordered
  have search : ∃ readings finished, Chronicle decoder program silent entries readings finished _ ∧
      Echoes recording finished _ _ := findBlocks_echoes regular placed rfl rfl rfl rfl
  obtain ⟨readings, finished, chronicle, echoes⟩ := search
  obtain ⟨quietFlow, quietAdjacent, quietEdges, quietDone⟩ :=
    run_fresh_linked regular placed silent entries
  obtain ⟨loudFlow, loudAdjacent, loudEdges, loudDone⟩ :=
    run_fresh_linked regular placed recording entries
  obtain ⟨findings, results⟩ :=
    chronicle.findProcedures_echoes ordered rfl echoes quietFlow loudFlow
  refine ⟨congrArg Outcome.fault quietDone, congrArg Outcome.fault loudDone, ?_, ?_, ?_, ?_, ?_, ?_,
    fun drained => ?_⟩
  · rw [loudDerived.blocks, derived.blocks, echoes.blocks]
  · rw [loudDerived.program, derived.program, echoes.program]
  · rw [loudDerived.instructions, derived.instructions, echoes.instructions]
  · simp only [quiet, loud]
    rw [quietDone, loudDone]
    exact congrArg₂ _ findings (by rw [echoes.program])
  · rw [loudDerived.pending, derived.pending, echoes.pending]
  · rw [loudDerived.references, derived.references, derived.program, derived.pending, derived.slots]
    exact ⟨readings, finished.filter isReady, chronicle.ledger.distinct, chronicle.ledger.marked,
      chronicle.ledger.read, echoes.recorded, chronicle.references_eq, chronicle.recordable_perm rfl⟩
  · rw [derived.pending] at drained
    have agrees := chronicle.flow_agrees regular placed rfl rfl echoes drained quietEdges loudEdges
    simp only [quiet, loud]
    rw [quietDone, loudDone]
    refine ⟨fun place => ?_, results quietAdjacent loudAdjacent agrees⟩
    simp only [Outcome.done, findProcedures_flow]
    exact agrees.successors_perm loudAdjacent quietAdjacent place

/-- The path behind the conditional jump at the start is a reference in one analysis only, and it leads
to the second block in both. -/
theorem sample_run_records_not_taken :
    let quiet := (run sampleDecoder (.fresh sample { recordFallThrough := false }) [sampleEntry]).state
    let loud := (run sampleDecoder (.fresh sample {}) [sampleEntry]).state
    let path : Reference := ⟨some ⟨.segment 0, 0⟩, some ⟨.segment 0, 2⟩, .conditionalJump, none⟩
    sample.Built ∧ sampleDecoder.Placed ∧ quiet.pending.toList = [] ∧
      path ∈ loud.references.toList ∧ path ∉ quiet.references.toList ∧
      ⟨0, 2⟩ ∈ quiet.flow.successors ⟨0, 0⟩ ∧
      (loud.flow.successors ⟨0, 0⟩).Perm (quiet.flow.successors ⟨0, 0⟩) ∧
      loud.diagnostics = quiet.diagnostics ∧ loud.procedures = quiet.procedures := by
  intro quiet loud path
  have drained : quiet.pending.toList = [] := by decide +kernel
  have recorded : path ∈ loud.references.toList := by decide +kernel
  have omitted : path ∉ quiet.references.toList := by decide +kernel
  have follows : ⟨0, 2⟩ ∈ quiet.flow.successors ⟨0, 0⟩ := by decide +kernel
  obtain ⟨-, -, -, -, -, findings, -, -, whole⟩ :=
    run_records_not_taken sample_built sampleDecoder_placed {} [sampleEntry]
  obtain ⟨successors, procedures, -⟩ := whole drained
  exact ⟨sample_built, sampleDecoder_placed, drained, recorded, omitted, follows, successors ⟨0, 0⟩,
    findings, procedures⟩

end RealMode.Analysis
