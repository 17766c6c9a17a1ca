import RealMode.Proofs.Analysis.Calls
import RealMode.Proofs.Analysis.Frame
import RealMode.Proofs.Analysis.Tasks
import RealMode.Proofs.Program.Runs

/-! Code that the search finds is code that control can reach.

Reachability is a property of the program alone: it looks at entry points and at what is decoded,
never at marks, tasks or blocks. The search follows such addresses only, and where it marks an
instruction it marks exactly the bytes of the one that is decoded there. -/

set_option autoImplicit false

namespace RealMode.Analysis

/-- The least set of addresses that has the entry points and is closed under the ways out of the
instructions that are decoded at its addresses. -/
inductive Reachable (decoder : Decoder) (program : Program) (entries : List EntryPoint) :
    Address → Prop where
  | entry {entry : EntryPoint} (listed : entry ∈ entries) :
      Reachable decoder program entries entry.address
  | next {address next : Address} {instruction : Instruction}
      (reachable : Reachable decoder program entries address)
      (decodes : Decodes decoder program address instruction)
      (passes : instruction.flow.runsOn = true ∨ instruction.flow = .conditionalJump)
      (ahead : following? instruction address = some next) : Reachable decoder program entries next
  | branch {address target : Address} {instruction : Instruction}
      (reachable : Reachable decoder program entries address)
      (decodes : Decodes decoder program address instruction)
      (branches : instruction.flow.branches = true)
      (leads : program.branchTarget? instruction address = some target) :
      Reachable decoder program entries target
  | slot {address table location : Address} {instruction : Instruction} {number : Nat} {place : Place}
      {value : UInt16} (reachable : Reachable decoder program entries address)
      (decodes : Decodes decoder program address instruction)
      (starts : JumpTable.start? program instruction address = some table)
      (numbered : slotAddress? table number = some location)
      (located : program.resolve location = some place) (reads : program.word? place = some value) :
      Reachable decoder program entries ⟨address.referent, value⟩

section Reachable

variable {decoder : Decoder} {program : Program}

theorem Reachable.mono {entries more : List EntryPoint} {address : Address}
    (reachable : Reachable decoder program entries address) (subset : entries ⊆ more) :
    Reachable decoder program more address := by
  induction reachable with
  | entry listed => exact .entry (subset listed)
  | next _ decodes passes ahead ih => exact .next ih decodes passes ahead
  | branch _ decodes branches leads ih => exact .branch ih decodes branches leads
  | slot _ decodes starts numbered located reads ih =>
      exact .slot ih decodes starts numbered located reads

/-- What is decoded when bytes have become known is decoded all the same without that. -/
theorem Decodes.of_remarked {marked : Program} {address : Address} {instruction : Instruction}
    (decodes : Decodes decoder marked address instruction) (blind : decoder.Blind)
    (remarked : program.Remarked marked) : Decodes decoder program address instruction := by
  obtain ⟨place, image, reached, inside, found, decoded⟩ := decodes
  obtain ⟨earlier, earlierFound, same⟩ := remarked.image_eq found
  refine ⟨place, earlier, (remarked.resolve address).symm.trans reached,
    (remarked.contains place).symm.trans inside, earlierFound, ?_⟩
  exact (blind image earlier _ _ same).symm.trans decoded

end Reachable

/-- Both ends of a reference can be reached, as far as it has them. -/
structure Legal (decoder : Decoder) (program : Program) (entries : List EntryPoint)
    (reference : Reference) : Prop where
  source : ∀ address, reference.source = some address → Reachable decoder program entries address
  target : ∀ address, reference.target = some address → Reachable decoder program entries address

/-- An instruction that is decoded at an address that can be reached is marked at a place. -/
def Witnessed (decoder : Decoder) (origin : Program) (state : Analysis) (place : Place) : Prop :=
  ∃ address image instruction, Reachable decoder origin state.entries address ∧
    origin.resolve address = some place ∧ origin.image? place.image = some image ∧
    decoder image place.offset address.offset = .ok instruction ∧
    state.program.Spans place instruction.length

/-- The search keeps to what can be reached. -/
structure Confined (decoder : Decoder) (origin : Program) (moment : Moment) : Prop where
  tasks : ∀ task, Knows moment task →
    Legal decoder origin moment.state.entries task.reference
  scanned : ∀ task start here offset, moment.activity = .scanning task start here offset →
    Reachable decoder origin moment.state.entries here
  marked : ∀ place, (origin.marksAt place).startsCode = false →
    (moment.state.program.marksAt place).startsCode = true →
      Witnessed decoder origin moment.state place
  unbroken : moment.state.program.Unbroken

section Steps

variable {decoder : Decoder} {before after : Moment}

theorem Step.unbroken (step : Step decoder before after) (placed : decoder.Placed)
    (unbroken : before.state.program.Unbroken) : after.state.program.Unbroken := by
  cases step.program placed with
  | none same => exact same ▸ unbroken
  | code _ _ _ _ free painted => exact painted ▸ unbroken.paint free .code
  | data free painted => exact painted ▸ unbroken.paint free .data

theorem Step.spans (step : Step decoder before after) (placed : decoder.Placed) {place : Place}
    {length : Nat} (spans : before.state.program.Spans place length) :
    after.state.program.Spans place length := by
  cases step.program placed with
  | none same => exact same ▸ spans
  | code _ _ _ _ free painted => exact painted ▸ spans.paint free
  | data free painted => exact painted ▸ spans.paint free

theorem Witnessed.step {origin : Program} {place : Place}
    (witnessed : Witnessed decoder origin before.state place) (placed : decoder.Placed)
    (step : Step decoder before after) : Witnessed decoder origin after.state place := by
  obtain ⟨address, image, instruction, reachable, reached, found, decoded, spans⟩ := witnessed
  exact ⟨address, image, instruction, reachable.mono step.entries_subset, reached, found, decoded,
    step.spans placed spans⟩

end Steps

namespace Confined

variable {decoder : Decoder} {origin : Program} {before after : Moment}

theorem fresh (decoder : Decoder) {program : Program} (unbroken : program.Unbroken)
    (settings : Settings) : Confined decoder program ⟨.fresh program settings, .idle⟩ where
  tasks task known := by
    rcases known with member | taken
    · simp [Analysis.fresh] at member
    · cases taken
  scanned _ _ _ _ scanning := by cases scanning
  marked place earlier now := by cases earlier.symm.trans now
  unbroken := unbroken

/-- What is decoded in a scan is decoded in the program that the analysis started with. -/
theorem decodes_of_scan {state : Analysis} {task : Task} {start : Place} {here : Address}
    {offset : Nat} {image : Image} {instruction : Instruction}
    (sound : Sound origin ⟨state, .scanning task start here offset⟩) (regular : origin.Regular)
    (placed : decoder.Placed) (blind : decoder.Blind)
    (found : state.program.image? start.image = some image)
    (decoded : decoder image offset here.offset = .ok instruction)
    (unattributed : image.isUnattributed offset instruction.stop = true) :
    Decodes decoder origin here instruction :=
  (Traced.decodes_of_scan sound regular placed found decoded unattributed).of_remarked blind
    sound.owned.remarked

theorem tasks_step (confined : Confined decoder origin before) (sound : Sound origin before)
    (traced : Traced decoder origin before) (regular : origin.Regular) (placed : decoder.Placed)
    (blind : decoder.Blind) (step : Step decoder before after) {task : Task}
    (known : Knows after task) : Legal decoder origin after.state.entries task.reference := by
  have kept {address : Address} (reachable : Reachable decoder origin before.state.entries address) :
      Reachable decoder origin after.state.entries address := reachable.mono step.entries_subset
  rcases step.knows known with earlier | raised
  · have legal := confined.tasks task earlier
    exact ⟨fun address starts => kept (legal.source address starts),
      fun address points => kept (legal.target address points)⟩
  · cases raised with
    | entry member =>
        refine ⟨nofun, fun address points => ?_⟩
        obtain rfl := Option.some.inj points
        exact .entry (List.mem_append_right _ member)
    | slot reads member =>
        have waiting := confined.tasks _ (.inr rfl)
        have indexes := traced.indexed _ (.inr rfl) _ _ reads.waits
        rw [reads.waits] at waiting
        have reachable := kept (waiting.source _ rfl)
        refine ⟨fun address starts => ?_, fun address points => ?_⟩
        · rw [reads.source_of_mem member] at starts
          obtain rfl := Option.some.inj starts
          exact reachable
        · rcases List.mem_cons.mp member with rfl | next
          · obtain ⟨value, place, target, read, -⟩ := reads.target
            obtain ⟨marked, instruction, table, number, remarked, decodes, starts, numbered⟩ := indexes
            rw [Task.recorded, target] at points
            obtain rfl := Option.some.inj points
            have located := (sound.owned.remarked.resolve _).symm.trans reads.reached
            have word := (sound.owned.remarked.word? _).symm.trans (JumpTable.word?_of_value? read)
            exact .slot reachable (decodes.of_remarked blind remarked) starts numbered located word
          -- The reference that waits for the following slot has no target yet.
          · rw [reads.next, Option.map_map, Option.mem_toList, Option.map_eq_some_iff] at next
            obtain ⟨_, -, rfl⟩ := next
            cases points
    | departure found decoded unattributed departs =>
        have reachable := confined.scanned _ _ _ _ rfl
        have decodes := decodes_of_scan sound regular placed blind found decoded unattributed
        obtain ⟨free, -⟩ := free_of_decoded placed found decoded unattributed
        have painted := sound.owned.remarked.trans
          (free.remarked (by decide : Content.code ≠ .padding))
        refine ⟨fun address starts => ?_, fun address points => ?_⟩
        · rw [departs.source] at starts
          obtain rfl := Option.some.inj starts
          exact kept reachable
        · cases departs with
          | branch kind branches =>
              exact kept (.branch reachable decodes branches
                ((painted.branchTarget? _ _).symm.trans points))
          | table _ => cases points
          | onward conditional ahead =>
              obtain rfl := Option.some.inj points
              exact kept (.next reachable decodes (.inr conditional) ahead)

theorem scanned_step (confined : Confined decoder origin before) (sound : Sound origin before)
    (regular : origin.Regular) (placed : decoder.Placed) (blind : decoder.Blind)
    (step : Step decoder before after) {task : Task} {start : Place} {here : Address} {offset : Nat}
    (scanning : after.activity = .scanning task start here offset) :
    Reachable decoder origin after.state.entries here := by
  cases step with
  | begin points reached inside unknown =>
      cases scanning
      exact (confined.tasks _ (.inr rfl)).target _ points
  | advance _ found decoded unattributed =>
      have decodes := decodes_of_scan sound regular placed blind found decoded unattributed
      simp only [activityBehind] at scanning
      split at scanning
      · cases scanning
      · rename_i next ahead
        split at scanning
        · cases scanning
        · cases scanning
          obtain ⟨runs, behind⟩ := onward_eq_ok ahead
          exact .next (confined.scanned _ _ _ _ rfl) decodes (.inl runs) behind
  | _ => cases scanning

theorem marked_step (confined : Confined decoder origin before) (sound : Sound origin before)
    (placed : decoder.Placed) (blind : decoder.Blind) (step : Step decoder before after)
    {place : Place} (earlier : (origin.marksAt place).startsCode = false)
    (now : (after.state.program.marksAt place).startsCode = true) :
    Witnessed decoder origin after.state place := by
  have kept (already : (before.state.program.marksAt place).startsCode = true) :
      Witnessed decoder origin after.state place :=
    (confined.marked place earlier already).step placed step
  cases step with
  | consume reads =>
      refine kept ?_
      simpa [consumed, reads.free.startsCode_paint] using now
  | @advance state task start here offset image instruction room found decoded unattributed =>
      obtain ⟨free, -⟩ := free_of_decoded placed found decoded unattributed
      have started : ((state.program.marksAt place).startsCode ||
          decide (Content.code = .code ∧ place = ⟨start.image, offset⟩)) = true :=
        (free.startsCode_paint .code place).symm.trans now
      rw [Bool.or_eq_true, decide_eq_true_eq, and_iff_right rfl] at started
      rcases started with already | rfl
      · exact kept already
      · obtain ⟨original, originalFound, same⟩ := sound.owned.remarked.image_eq found
        exact ⟨here, original, instruction, confined.scanned _ _ _ _ rfl,
          (sound.owned.remarked.resolve _).symm.trans sound.located.2.1, originalFound,
          (blind image original _ _ same).symm.trans decoded, .of_paint confined.unbroken free⟩
  | _ => exact kept now

theorem step (confined : Confined decoder origin before) (sound : Sound origin before)
    (traced : Traced decoder origin before) (regular : origin.Regular) (placed : decoder.Placed)
    (blind : decoder.Blind) (step : Step decoder before after) : Confined decoder origin after where
  tasks _ known := confined.tasks_step sound traced regular placed blind step known
  scanned _ _ _ _ scanning := confined.scanned_step sound regular placed blind step scanning
  marked _ earlier now := confined.marked_step sound placed blind step earlier now
  unbroken := step.unbroken placed confined.unbroken

theorem steps {program : Program} {settings : Settings} {moment : Moment} (regular : program.Regular)
    (unbroken : program.Unbroken) (placed : decoder.Placed) (blind : decoder.Blind)
    (steps : Steps decoder ⟨.fresh program settings, .idle⟩ moment) :
    Confined decoder program moment := by
  induction steps with
  | refl => exact .fresh decoder unbroken settings
  | tail earlier step ih =>
      exact ih.step (.steps regular placed earlier) (.steps regular placed earlier) regular placed
        blind step

end Confined

/-- A byte that a search has made the start of an instruction is one that control can reach, and the
instruction that is decoded there covers exactly that byte and the bytes that continue it. -/
theorem findBlocks_marks_reachable_code {program : Program} {decoder : Decoder}
    (built : program.Built) (placed : decoder.Placed) (blind : decoder.Blind) (settings : Settings)
    (entries : List EntryPoint) :
    let outcome := findBlocks decoder (.fresh program settings) entries
    outcome.fault = none ∧
    ∀ place, (program.marksAt place).startsCode = false →
      (outcome.state.program.marksAt place).startsCode = true →
      ∃ address image instruction, Reachable decoder program entries address ∧
        program.resolve address = some place ∧ program.image? place.image = some image ∧
        decoder image place.offset address.offset = .ok instruction ∧
        outcome.state.program.Spans place instruction.length := by
  intro outcome
  have start : Reached decoder program settings (.fresh program settings) := .refl
  obtain ⟨faultless, reached⟩ := start.findBlocks built.regular placed entries
  refine ⟨faultless, fun place earlier now => ?_⟩
  have confined := Confined.steps built.regular built.unbroken placed blind reached
  obtain ⟨address, image, instruction, reachable, located, found, decoded, spans⟩ :=
    confined.marked place earlier now
  rw [entries_findBlocks_fresh] at reachable
  exact ⟨address, image, instruction, reachable, located, found, decoded, spans⟩

/-- The return, to which only the second slot of the table leads. -/
theorem sample_findBlocks_marks_reachable :
    let final := (findBlocks sampleDecoder (.fresh sample {}) [sampleEntry]).state
    sample.Built ∧ sampleDecoder.Placed ∧ sampleDecoder.Blind ∧
      (sample.marksAt ⟨0, 12⟩).startsCode = false ∧
      (final.program.marksAt ⟨0, 12⟩).startsCode = true ∧
      ∃ address image instruction, Reachable sampleDecoder sample [sampleEntry] address ∧
        sample.resolve address = some ⟨0, 12⟩ ∧ sample.image? 0 = some image ∧
        sampleDecoder image 12 address.offset = .ok instruction ∧
        final.program.Spans ⟨0, 12⟩ instruction.length := by
  intro final
  have blind : sampleDecoder.Blind := Script.decoder_blind sampleRows
  have earlier : (sample.marksAt ⟨0, 12⟩).startsCode = false := by decide
  have now : (final.program.marksAt ⟨0, 12⟩).startsCode = true := by decide +kernel
  have code := (findBlocks_marks_reachable_code sample_built sampleDecoder_placed blind {}
    [sampleEntry]).2 ⟨0, 12⟩ earlier now
  exact ⟨sample_built, sampleDecoder_placed, blind, earlier, now, code⟩

end RealMode.Analysis
