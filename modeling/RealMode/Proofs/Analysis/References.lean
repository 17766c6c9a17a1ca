import RealMode.Proofs.Analysis.Calls
import RealMode.Proofs.Analysis.Ledger

/-! References and the instructions that leave them.

When a search has come to its end, all of its tasks are done. So each instruction has left the
references that its flow asks for, each slot and each entry point has left one, and there are no
others. -/

set_option autoImplicit false

namespace RealMode.Analysis

/-- The references that start at the byte at a place. -/
def referencesFrom (program : Program) (references : List Reference) (place : Place) :
    List Reference :=
  references.filter fun reference => reference.source.bind program.resolve = some place

/-- An instruction starts at a place where none did in `origin`. -/
def StartsAnew (origin program : Program) (place : Place) : Prop :=
  (origin.marksAt place).startsCode = false ∧ (program.marksAt place).startsCode = true

theorem mem_instructionReferences {program : Program} {settings : Settings}
    {instruction : Instruction} {here : Address} {reference : Reference}
    (member : reference ∈ instructionReferences program settings instruction here) :
    reference.source = some here ∧ reference.kind ≠ .indexedJump ∧
      reference.kind.isCall = instruction.flow.runsOn := by
  unfold instructionReferences at member
  cases flow : instruction.flow with
  | next | interrupt | ret | halt => simp [flow] at member
  | call far =>
      simp only [flow, List.mem_singleton] at member
      subst member
      cases far <;> exact ⟨rfl, nofun, rfl⟩
  | jump far =>
      simp only [flow] at member
      split at member
      · cases member
      · rw [List.mem_singleton.mp member]
        cases far <;> exact ⟨rfl, nofun, rfl⟩
  | conditionalJump =>
      simp only [flow, List.mem_cons] at member
      rcases member with rfl | onward
      · exact ⟨rfl, nofun, rfl⟩
      · split at onward
        · obtain ⟨next, -, rfl⟩ := List.mem_map.mp onward
          exact ⟨rfl, nofun, rfl⟩
        · cases onward

theorem instructionReferences_of_table {program : Program} {settings : Settings}
    {instruction : Instruction} {here : Address}
    (table : goesThroughTable program settings instruction here = true) :
    instructionReferences program settings instruction here = [] := by
  simp [instructionReferences, flow_of_goesThroughTable table, table]

theorem filter_flatMap_eq {α β : Type} {items : α → List β} {test : β → Bool} {list : List α}
    {item : α} (nodup : list.Nodup) (member : item ∈ list) (own : ∀ part ∈ items item, test part = true)
    (others : ∀ other ∈ list, other ≠ item → ∀ part ∈ items other, test part = false) :
    (list.flatMap items).filter test = items item := by
  induction list with
  | nil => cases member
  | cons head rest ih =>
      obtain ⟨fresh, nodup⟩ := List.nodup_cons.mp nodup
      have later (other : α) (listed : other ∈ rest) := others other (List.mem_cons_of_mem head listed)
      rw [List.flatMap_cons, List.filter_append]
      rcases List.mem_cons.mp member with rfl | member
      · have none : (rest.flatMap items).filter test = [] := by
          refine List.filter_eq_nil_iff.mpr fun part listed => ?_
          obtain ⟨other, otherListed, found⟩ := List.mem_flatMap.mp listed
          have different : other ≠ item := fun same => fresh (same ▸ otherListed)
          simp [later other otherListed different part found]
        rw [none, List.append_nil, List.filter_eq_self]
        exact own
      · have different : head ≠ item := fun same => fresh (same ▸ member)
        have none : (items head).filter test = [] :=
          List.filter_eq_nil_iff.mpr fun part listed => by
            simp [others head List.mem_cons_self different part listed]
        rw [none, List.nil_append]
        exact ih nodup member later

namespace Ledger

variable {decoder : Decoder} {origin : Program} {settings : Settings} {entries : List EntryPoint}
  {readings : List Reading} {finished : List Task} {moment : Moment} {state : Analysis}
  {reading : Reading}

/-- No byte has been read twice. -/
theorem eq_of_place (ledger : Ledger decoder origin settings entries readings finished moment)
    (member : reading ∈ readings) {other : Reading} (otherMember : other ∈ readings)
    (same : other.place = reading.place) : other = reading :=
  List.inj_on_of_nodup_map ledger.distinct otherMember member same

/-- Of the references of all instructions, those from a byte are those of the instruction there. -/
theorem referencesFrom_readings
    (ledger : Ledger decoder origin settings entries readings finished moment)
    (member : reading ∈ readings) :
    referencesFrom origin (readings.flatMap fun reading =>
        instructionReferences origin settings reading.instruction reading.here) reading.place =
      instructionReferences origin settings reading.instruction reading.here := by
  have located (other : Reading) (listed : other ∈ readings) (reference : Reference)
      (left : reference ∈ instructionReferences origin settings other.instruction other.here) :
      reference.source.bind origin.resolve = some other.place := by
    rw [(mem_instructionReferences left).1]
    exact (ledger.read other listed).located
  refine filter_flatMap_eq (List.Nodup.of_map _ ledger.distinct) member
    (fun reference left => decide_eq_true (located reading member reference left))
    fun other listed different reference left => decide_eq_false ?_
  rw [located other listed reference left, Option.some.injEq]
  exact fun same => different (ledger.eq_of_place member listed same)

/-- The slots that a jump has consumed are found by its place as well as by its address. -/
theorem slots_at (ledger : Ledger decoder origin settings entries readings finished moment)
    (member : reading ∈ readings) {slot : ConsumedSlot} (consumed : slot ∈ moment.state.slots) :
    origin.resolve slot.jump = some reading.place ↔
      slot.jump = reading.here ∧
        goesThroughTable origin settings reading.instruction reading.here = true := by
  constructor
  · intro reached
    obtain ⟨-, other, otherMember, same, table⟩ := ledger.slots slot consumed
    have located := (ledger.read other otherMember).located
    rw [same, reached] at located
    obtain rfl := ledger.eq_of_place member otherMember (Option.some.inj located).symm
    exact ⟨same.symm, table⟩
  · rintro ⟨same, -⟩
    rw [same]
    exact (ledger.read reading member).located

/-- The references of a search whose tasks are all done. -/
theorem drained_references
    (ledger : Ledger decoder origin settings entries readings finished ⟨state, .idle⟩)
    (drained : state.pending.toList = []) :
    state.references.toList.Perm
      (entries.map (fun entry => .toEntry entry.address) ++
        readings.flatMap (fun reading =>
          instructionReferences origin settings reading.instruction reading.here) ++
        state.slots.map (slotReference origin)) := by
  simpa [drained, Activity.task?] using ledger.references_perm

/-- A reference that has a source starts at an instruction that has been read. -/
theorem source_read (ledger : Ledger decoder origin settings entries readings finished moment)
    {reference : Reference} (member : reference ∈ moment.state.references.toList) {source : Address}
    (starts : reference.source = some source) :
    ∃ reading ∈ readings, reading.here = source ∧
      (reference ∈ instructionReferences origin settings reading.instruction reading.here ∨
        goesThroughTable origin settings reading.instruction reading.here = true ∧
          reference.kind = .indexedJump) := by
  have listed := ledger.references_perm.mem_iff.mp (List.mem_append_left _ member)
  simp only [List.mem_append, List.mem_map, List.mem_flatMap] at listed
  rcases listed with (⟨entry, -, rfl⟩ | ⟨reading, read, left⟩) | ⟨slot, consumed, rfl⟩
  · cases starts
  · have own := (mem_instructionReferences left).1
    exact ⟨reading, read, Option.some.inj (own.symm.trans starts), .inl left⟩
  · obtain ⟨-, reading, read, same, table⟩ := ledger.slots slot consumed
    exact ⟨reading, read, same.trans (Option.some.inj starts), .inr ⟨table, rfl⟩⟩

section Drained

variable (ledger : Ledger decoder origin settings entries readings finished ⟨state, .idle⟩)
  (drained : state.pending.toList = [])

include ledger drained

theorem referencesFrom_perm (member : reading ∈ readings) :
    (referencesFrom origin state.references.toList reading.place).Perm
      (if goesThroughTable origin settings reading.instruction reading.here then
        (state.slots.filter fun slot => slot.jump = reading.here).map (slotReference origin)
      else instructionReferences origin settings reading.instruction reading.here) := by
  have all := (ledger.drained_references drained).filter fun reference =>
    decide (reference.source.bind origin.resolve = some reading.place)
  have entered : (entries.map fun entry => Reference.toEntry entry.address).filter
      (fun reference => decide (reference.source.bind origin.resolve = some reading.place)) = [] := by
    simp [Reference.toEntry]
  have jumps : (state.slots.map (slotReference origin)).filter
      (fun reference => decide (reference.source.bind origin.resolve = some reading.place)) =
      (state.slots.filter fun slot => slot.jump = reading.here ∧
        goesThroughTable origin settings reading.instruction reading.here = true).map
          (slotReference origin) := by
    rw [List.filter_map]
    refine congrArg _ (List.filter_congr fun slot consumed => ?_)
    exact decide_eq_decide.mpr (ledger.slots_at member consumed)
  have read := ledger.referencesFrom_readings member
  unfold referencesFrom at read ⊢
  rw [List.filter_append, List.filter_append, entered, read, jumps, List.nil_append] at all
  split
  · rename_i table
    simpa [instructionReferences_of_table table, table] using all
  · rename_i direct
    simpa [direct] using all

theorem entries_perm :
    (state.references.toList.filter fun reference => reference.source = none).Perm
      (entries.map fun entry => .toEntry entry.address) := by
  have all := (ledger.drained_references drained).filter fun reference =>
    decide (reference.source = none)
  have read : (readings.flatMap fun reading =>
      instructionReferences origin settings reading.instruction reading.here).filter
        (fun reference => decide (reference.source = none)) = [] := by
    refine List.filter_eq_nil_iff.mpr fun reference listed => ?_
    obtain ⟨reading, -, left⟩ := List.mem_flatMap.mp listed
    simp [(mem_instructionReferences left).1]
  rw [List.filter_append, List.filter_append, read, List.append_nil] at all
  simpa [List.filter_map, Function.comp_def, Reference.toEntry, slotReference] using all

theorem slots_perm :
    (state.references.toList.filter fun reference => reference.kind = .indexedJump).Perm
      (state.slots.map (slotReference origin)) := by
  have all := (ledger.drained_references drained).filter fun reference =>
    decide (reference.kind = .indexedJump)
  have read : (readings.flatMap fun reading =>
      instructionReferences origin settings reading.instruction reading.here).filter
        (fun reference => decide (reference.kind = .indexedJump)) = [] := by
    refine List.filter_eq_nil_iff.mpr fun reference listed => ?_
    obtain ⟨reading, -, left⟩ := List.mem_flatMap.mp listed
    simp [(mem_instructionReferences left).2.1]
  rw [List.filter_append, List.filter_append, read, List.append_nil] at all
  simpa [List.filter_map, Function.comp_def, Reference.toEntry, slotReference] using all

end Drained

end Ledger

/-- The records of a search for blocks. -/
theorem findBlocks_ledger {program : Program} {decoder : Decoder} (regular : program.Regular)
    (placed : decoder.Placed) (settings : Settings) (entries : List EntryPoint) :
    ∃ readings finished, Ledger decoder program settings entries readings finished
      ⟨(findBlocks decoder (.fresh program settings) entries).state, .idle⟩ := by
  have start : Reached decoder program settings (.fresh program settings) := .refl
  exact Ledger.proceeds regular placed (start.proceeds regular placed entries).2

/-- The references of a search that has come to its end belong to instructions that it has marked,
to slots that it has consumed and to its entry points. From the byte at which an instruction starts
there are those that its flow asks for, and each slot and each entry point has one. -/
theorem findBlocks_references {program : Program} {decoder : Decoder} (built : program.Built)
    (placed : decoder.Placed) (blind : decoder.Blind)
    (steady : decoder.Steady fun instruction => (instruction.length, instruction.flow))
    (settings : Settings) (entries : List EntryPoint)
    (drained : (findBlocks decoder (.fresh program settings) entries).state.pending.toList = []) :
    let final := (findBlocks decoder (.fresh program settings) entries).state
    (∀ place, StartsAnew program final.program place → ∃ image here instruction,
      program.image? place.image = some image ∧ program.resolve here = some place ∧
      decoder image place.offset here.offset = .ok instruction ∧
      (∀ ip, ∃ read, decoder image place.offset ip = .ok read ∧
        read.length = instruction.length ∧ read.flow = instruction.flow) ∧
      (referencesFrom program final.references.toList place).Perm
        (if goesThroughTable program settings instruction here then
          (final.slots.filter fun slot => slot.jump = here).map (slotReference program)
        else instructionReferences program settings instruction here)) ∧
    (∀ reference ∈ final.references.toList, ∀ source, reference.source = some source →
      ∃ place, program.resolve source = some place ∧ StartsAnew program final.program place) ∧
    (final.references.toList.filter fun reference => reference.source = none).Perm
      (entries.map fun entry => .toEntry entry.address) ∧
    (final.references.toList.filter fun reference => reference.kind = .indexedJump).Perm
      (final.slots.map (slotReference program)) := by
  intro final
  obtain ⟨readings, finished, ledger⟩ := findBlocks_ledger built.regular placed settings entries
  refine ⟨fun place starts => ?_, fun reference member source known => ?_,
    ledger.entries_perm drained, ledger.slots_perm drained⟩
  · obtain ⟨reading, member, rfl⟩ := (ledger.marked place).mpr starts
    obtain ⟨located, -, image, other, found, same, decoded⟩ := ledger.read reading member
    rw [blind other image _ _ same] at decoded
    refine ⟨image, reading.here, reading.instruction, found, located, decoded, fun ip => ?_,
      ledger.referencesFrom_perm drained member⟩
    obtain ⟨read, readAgain, alike⟩ := steady.decodes rfl decoded ip
    exact ⟨read, readAgain, (Prod.mk.inj alike).1, (Prod.mk.inj alike).2⟩
  · obtain ⟨reading, read, rfl, -⟩ := ledger.source_read member known
    exact ⟨reading.place, (ledger.read reading read).located,
      (ledger.marked _).mp ⟨reading, read, rfl⟩⟩

/-- A conditional jump at the start, and two slots behind a jump through a table. -/
theorem sample_findBlocks_references :
    let final := (findBlocks sampleDecoder (.fresh sample {}) [sampleEntry]).state
    sample.Built ∧ sampleDecoder.Placed ∧ sampleDecoder.Blind ∧
      sampleDecoder.Steady (fun instruction => (instruction.length, instruction.flow)) ∧
      final.pending.toList = [] ∧ StartsAnew sample final.program ⟨0, 0⟩ ∧
      (∃ here instruction, sample.resolve here = some ⟨0, 0⟩ ∧
        (referencesFrom sample final.references.toList ⟨0, 0⟩).Perm
          (if goesThroughTable sample {} instruction here then
            (final.slots.filter fun slot => slot.jump = here).map (slotReference sample)
          else instructionReferences sample {} instruction here)) ∧
      (final.references.toList.filter fun reference => reference.kind = .indexedJump).length = 2 := by
  intro final
  have blind := Script.decoder_blind sampleRows
  have steady := Script.decoder_steady sampleRows
  have drained : final.pending.toList = [] := by decide +kernel
  have starts : StartsAnew sample final.program ⟨0, 0⟩ := ⟨by decide, by decide +kernel⟩
  have consumed : (final.slots.map (slotReference sample)).length = 2 := by decide +kernel
  obtain ⟨each, -, -, slots⟩ := findBlocks_references sample_built sampleDecoder_placed blind steady
    {} [sampleEntry] drained
  obtain ⟨-, here, instruction, -, located, -, -, references⟩ := each ⟨0, 0⟩ starts
  exact ⟨sample_built, sampleDecoder_placed, blind, steady, drained, starts,
    ⟨here, instruction, located, references⟩, slots.length_eq.trans consumed⟩

end RealMode.Analysis
