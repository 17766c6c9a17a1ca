import RealMode.Proofs.Analysis.Findings
import RealMode.Proofs.Analysis.References

/-! Branches without a static target.

A branch whose target is not known leaves a finding when it is read and a reference without a target
when it has been followed. Nothing else leaves either of the two. -/

set_option autoImplicit false

namespace RealMode.Analysis

/-- Whether an instruction that has been read is a branch without a static target. -/
def Reading.isDynamic (reading : Reading) (origin : Program) (settings : Settings) : Bool :=
  (fresh origin settings).isDynamicBranch reading.instruction reading.here

theorem isDynamicBranch_of_remarked {origin : Program} {settings : Settings} {state : Analysis}
    (remarked : origin.Remarked state.program) (same : state.settings = settings)
    (instruction : Instruction) (here : Address) :
    state.isDynamicBranch instruction here =
      (fresh origin settings).isDynamicBranch instruction here := by
  have table := tableOf?_of_remarked remarked same instruction here
  simp only [isDynamicBranch, table, remarked.branchTarget?]
  rfl

/-- The findings about an instruction name its address as a dynamic target at most once. -/
theorem dynamic_remarks (state : Analysis) (instruction : Instruction) (here : Address) :
    (Diagnostic.withCode (state.remarks instruction here) .dynamicTarget).map Diagnostic.location =
      if state.isDynamicBranch instruction here then [some here] else [] := by
  unfold remarks
  cases state.isDynamicBranch instruction here <;> cases wraps instruction here <;>
    simp [Diagnostic.withCode, Diagnostic.found]

/-- An instruction leaves a reference without a target if it is a dynamic branch, and then only one. -/
theorem dynamic_instructionReferences (program : Program) (settings : Settings)
    (instruction : Instruction) (here : Address) :
    ((instructionReferences program settings instruction here).filter Reference.isDynamic).map
        Reference.source =
      if (fresh program settings).isDynamicBranch instruction here then [some here] else [] := by
  unfold instructionReferences isDynamicBranch
  have own : (fresh program settings).program = program := rfl
  cases flow : instruction.flow with
  | next | interrupt | ret | halt => rfl
  | call far =>
      cases target : program.branchTarget? instruction here <;>
        simp [own, target, List.filter_cons, Reference.isDynamic]
  | jump far =>
      have table : ((fresh program settings).tableOf? instruction here far).isSome =
          goesThroughTable program settings instruction here := isSome_tableOf? flow
      cases target : program.branchTarget? instruction here <;>
        cases found : (fresh program settings).tableOf? instruction here far <;>
          simp_all [List.filter_cons, Reference.isDynamic]
  | conditionalJump =>
      cases target : program.branchTarget? instruction here <;>
        cases settings.recordFallThrough <;> cases following? instruction here <;>
          simp [own, target, List.filter_cons, Reference.isDynamic]

section Findings

variable {decoder : Decoder} {before after : Moment} {readings later : List Reading}

theorem Finding.code_ne_dynamicTarget {program : Program} {reference : Reference} {target : Address}
    {location : Option Address} {code : Diagnostic.Code}
    (finding : Finding program reference target location code) : code ≠ .dynamicTarget := by
  cases finding <;> decide

theorem withCode_report {state : Analysis} {code other : Diagnostic.Code} (different : code ≠ other)
    (location : Option Address) (message : String) :
    Diagnostic.withCode (state.report location code message).diagnostics other =
      Diagnostic.withCode state.diagnostics other := by
  simp [Diagnostic.withCode, report, Diagnostic.found, different]

/-- A scan that has marked an instruction has not been left before it. -/
theorem activityBehind_ne_leaving {program : Program} {task : Task} {start : Place}
    {instruction : Instruction} {here : Address} {offset : Nat} {exit : Block.Exit}
    (longer : offset < instruction.stop) :
    activityBehind program task start instruction here ≠ .leaving task start offset exit := by
  unfold activityBehind
  split
  · rintro ⟨⟩
    exact Nat.lt_irrefl _ longer
  · split
    · rintro ⟨⟩
      exact Nat.lt_irrefl _ longer
    · rintro ⟨⟩

/-- A step that reads an instruction adds the findings about it. One that reads none finds no dynamic
target. -/
theorem Peruses.findings (peruses : Peruses decoder before after readings later)
    (works : Works decoder before after) (placed : decoder.Placed) :
    (later = readings ∧ Diagnostic.withCode after.state.diagnostics .dynamicTarget =
        Diagnostic.withCode before.state.diagnostics .dynamicTarget) ∨
      ∃ reading marked, later = reading :: readings ∧
        before.state.program.Remarked (Analysis.program marked) ∧
        marked.settings = before.state.settings ∧
        after.state.diagnostics =
          before.state.diagnostics ++ marked.remarks reading.instruction reading.here := by
  obtain ⟨step, busy⟩ := works
  cases peruses with
  | none stops =>
      refine .inl ⟨rfl, ?_⟩
      cases step with
      | enter _ | derive _ _ _ _ => exact absurd ⟨rfl, rfl⟩ busy
      | note _ finding message => exact withCode_report finding.code_ne_dynamicTarget _ message
      | refuse _ refusal message =>
          have others : ∀ code ∈ hindrances, code ≠ .dynamicTarget := by decide
          exact withCode_report (others _ refusal.code_mem_hindrances) _ message
      | advance _ found decoded unattributed =>
          obtain ⟨free, behind⟩ := free_of_decoded placed found decoded unattributed
          have longer := behind ▸ Nat.lt_add_of_pos_right free.1
          exact absurd (stops _ _ _ _ rfl) (activityBehind_ne_leaving longer)
      | _ => rfl
  | @one state after task start here offset image instruction _ found decoded unattributed marked =>
      obtain ⟨free, -⟩ := free_of_decoded placed found decoded unattributed
      -- The byte was unknown and is marked now, so the scan has not been left before it.
      have painted : after.program ≠ state.program := by
        intro same
        have starts := free.startsCode_paint .code ⟨start.image, offset⟩
        rw [← marked, same, Marks.startsCode_of_unknown (free.unknown free.inRun_self)] at starts
        simp at starts
      generalize activityBehind after.program task start instruction here = activity at step
      cases step with
      | exhaust _ | miss _ | refuse _ _ _ => exact absurd rfl painted
      | advance _ alsoFound alsoDecoded _ =>
          obtain rfl := Option.some.inj (found.symm.trans alsoFound)
          obtain rfl := Except.ok.inj (decoded.symm.trans alsoDecoded)
          exact .inr ⟨_, state.markInstruction start.image offset instruction.length, rfl,
            free.remarked (by decide), rfl, rfl⟩

end Findings

theorem dynamic_readings (origin : Program) (settings : Settings) (readings : List Reading) :
    ((readings.flatMap fun reading =>
        instructionReferences origin settings reading.instruction reading.here).filter
          Reference.isDynamic).map Reference.source =
      (readings.filter (·.isDynamic origin settings)).map fun reading => some reading.here := by
  induction readings with
  | nil => rfl
  | cons reading rest ih =>
      have own : (fresh origin settings).isDynamicBranch reading.instruction reading.here =
          reading.isDynamic origin settings := rfl
      rw [List.flatMap_cons, List.filter_append, List.map_append, ih, dynamic_instructionReferences,
        own, List.filter_cons]
      cases reading.isDynamic origin settings <;> simp

/-- The findings about dynamic targets are those of the branches that have been read. The last one read
is the first in the list of readings. -/
def Noted (origin : Program) (settings : Settings) (readings : List Reading) (state : Analysis) :
    Prop :=
  (Diagnostic.withCode state.diagnostics .dynamicTarget).map Diagnostic.location =
    ((readings.filter (·.isDynamic origin settings)).map fun reading => some reading.here).reverse

theorem Noted.step {decoder : Decoder} {origin : Program} {settings : Settings}
    {before after : Moment} {readings later : List Reading}
    (noted : Noted origin settings readings before.state)
    (remarked : origin.Remarked before.state.program)
    (configured : before.state.settings = settings) (placed : decoder.Placed)
    (works : Works decoder before after) (peruses : Peruses decoder before after readings later) :
    Noted origin settings later after.state := by
  unfold Noted at noted ⊢
  rcases peruses.findings works placed with ⟨rfl, same⟩ | ⟨reading, marked, rfl, painted, same, added⟩
  · rw [same, noted]
  · have own : marked.isDynamicBranch reading.instruction reading.here =
        reading.isDynamic origin settings :=
      isDynamicBranch_of_remarked (remarked.trans painted) (same.trans configured) _ _
    have split := dynamic_remarks marked reading.instruction reading.here
    unfold Diagnostic.withCode at noted split ⊢
    rw [added, List.filter_append, List.map_append, noted, split, own, List.filter_cons]
    cases reading.isDynamic origin settings <;> simp

theorem Noted.proceeds {decoder : Decoder} {program : Program} {settings : Settings}
    {entries : List EntryPoint} {moment : Moment} (regular : program.Regular)
    (placed : decoder.Placed)
    (proceeds : Proceeds decoder ⟨(fresh program settings).enter entries, .idle⟩ moment) :
    ∃ readings finished, Ledger decoder program settings entries readings finished moment ∧
      Noted program settings readings moment.state := by
  induction proceeds with
  | refl =>
      refine ⟨[], [], .enter decoder program settings entries, ?_⟩
      rw [enter_eq]
      rfl
  | tail earlier works ih =>
      obtain ⟨readings, finished, ledger, noted⟩ := ih
      have sound := Sound.steps regular placed
        (.head (enter_step (fresh program settings) entries) (Proceeds.steps earlier))
      obtain ⟨_, _, later, peruses, -⟩ := ledger.step sound regular placed works
      exact ⟨_, _, later,
        noted.step sound.owned.remarked ledger.configured placed works peruses⟩

namespace Ledger

variable {decoder : Decoder} {origin : Program} {settings : Settings} {entries : List EntryPoint}
  {readings : List Reading} {finished : List Task} {state : Analysis}
  (ledger : Ledger decoder origin settings entries readings finished ⟨state, .idle⟩)

include ledger

/-- Slots and entry points leave references with a target only. -/
theorem dynamic_perm (drained : state.pending.toList = []) :
    state.references.dynamic.Perm ((readings.flatMap fun reading =>
      instructionReferences origin settings reading.instruction reading.here).filter
        Reference.isDynamic) := by
  have all := (ledger.drained_references drained).filter Reference.isDynamic
  have entered : (entries.map fun entry => Reference.toEntry entry.address).filter
      Reference.isDynamic = [] := by
    simp [Reference.isDynamic, Reference.toEntry]
  have jumps : (state.slots.map (slotReference origin)).filter Reference.isDynamic = [] := by
    refine List.filter_eq_nil_iff.mpr fun reference listed => ?_
    obtain ⟨slot, consumed, rfl⟩ := List.mem_map.mp listed
    obtain ⟨word, read⟩ := Option.isSome_iff_exists.mp (ledger.slots slot consumed).1
    simp [Reference.isDynamic, slotReference, read]
  rw [List.filter_append, List.filter_append, entered, jumps, List.nil_append, List.append_nil] at all
  exact all

theorem dynamic_sources (drained : state.pending.toList = []) :
    (state.references.dynamic.map Reference.source).Perm
      ((readings.filter (·.isDynamic origin settings)).map fun reading => some reading.here) := by
  have sources := (ledger.dynamic_perm drained).map Reference.source
  rwa [dynamic_readings] at sources

/-- Instructions that have been read at one address are the same. -/
theorem nodup_here (test : Reading → Bool) :
    ((readings.filter test).map fun reading => some reading.here).Nodup := by
  have nodup := (List.Nodup.of_map _ ledger.distinct).filter test
  refine List.Nodup.map_on (fun first firstRead second secondRead same => ?_) nodup
  have read := (List.mem_filter.mp firstRead).1
  have also := (List.mem_filter.mp secondRead).1
  apply ledger.eq_of_place also read
  have located := (ledger.read first read).located
  rw [Option.some.inj same, (ledger.read second also).located] at located
  exact (Option.some.inj located).symm

end Ledger

/-- Findings about dynamic targets and references without a target are one-to-one, if a search has come
to its end: both stand for the branches without a static target among the instructions that have been
read, once for each of them. A jump through a table is none of them. -/
theorem findBlocks_notes_dynamic_targets {program : Program} {decoder : Decoder}
    (built : program.Built) (placed : decoder.Placed) (settings : Settings)
    (entries : List EntryPoint)
    (drained : (findBlocks decoder (.fresh program settings) entries).state.pending.toList = []) :
    let final := (findBlocks decoder (.fresh program settings) entries).state
    let findings := Diagnostic.withCode final.diagnostics .dynamicTarget
    let dynamic := final.references.dynamic
    (findings.map Diagnostic.location).Perm (dynamic.map Reference.source) ∧
    (dynamic.map Reference.source).Nodup ∧
    (∀ reference ∈ dynamic, reference.kind ≠ .indexedJump) ∧
    ∃ readings : List Reading,
      (∀ place, (∃ reading ∈ readings, reading.place = place) ↔
        StartsAnew program final.program place) ∧
      (∀ reading ∈ readings, reading.Holds decoder program) ∧
      (dynamic.map Reference.source).Perm
        ((readings.filter (·.isDynamic program settings)).map fun reading => some reading.here) := by
  intro final findings dynamic
  have start : Reached decoder program settings (.fresh program settings) := .refl
  obtain ⟨readings, finished, ledger, noted⟩ :=
    Noted.proceeds built.regular placed (start.proceeds built.regular placed entries).2
  have sources := ledger.dynamic_sources drained
  refine ⟨?_, ?_, ?_, readings, ledger.marked, ledger.read, sources⟩
  · have found : findings.map Diagnostic.location = _ := noted
    rw [found]
    exact (List.reverse_perm _).trans sources.symm
  · exact sources.nodup_iff.mpr (ledger.nodup_here _)
  · intro reference member
    have listed := (ledger.dynamic_perm drained).mem_iff.mp member
    obtain ⟨reading, -, left⟩ := List.mem_flatMap.mp (List.mem_filter.mp listed).1
    exact (mem_instructionReferences left).2.1

/-- Two calls without a static target before a jump through a table of two slots. -/
theorem sample_findBlocks_notes_dynamic_targets :
    let call : Script.Answer := .instruction 2 "call ax" (.call false) []
    let decoder := Script.decoder (⟨0, 0, call⟩ :: ⟨0, 2, call⟩ :: sampleRows)
    let final := (findBlocks decoder (.fresh sample {}) [sampleEntry]).state
    let findings := Diagnostic.withCode final.diagnostics .dynamicTarget
    sample.Built ∧ decoder.Placed ∧ final.pending.toList = [] ∧ final.slots.length = 2 ∧
      findings.length = 2 ∧
      (findings.map Diagnostic.location).Perm (final.references.dynamic.map Reference.source) ∧
      (final.references.dynamic.map Reference.source).Nodup ∧
      ∀ reference ∈ final.references.dynamic, reference.kind ≠ .indexedJump := by
  intro call decoder final findings
  have placed : decoder.Placed := Script.decoder_placed (by decide)
  have drained : final.pending.toList = [] := by decide +kernel
  have slots : final.slots.length = 2 := by decide +kernel
  have two : findings.length = 2 := by decide +kernel
  obtain ⟨same, nodup, kinds, -⟩ :=
    findBlocks_notes_dynamic_targets sample_built placed {} [sampleEntry] drained
  exact ⟨sample_built, placed, drained, slots, two, same, nodup, kinds⟩

end RealMode.Analysis
