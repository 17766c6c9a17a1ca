import RealMode.Proofs.Analysis.Leaders

/-! The findings about targets.

A reference that has been recorded was followed first. Either a block starts at its target since
then, or a finding says why there is none. The limits do not matter: a task is taken only while an
instruction may still be decoded, so its first instruction is always tried. -/

set_option autoImplicit false

namespace RealMode.Analysis

def Reports (state : Analysis) (location : Option Address) (code : Diagnostic.Code) : Prop :=
  ∃ diagnostic ∈ state.diagnostics, diagnostic.location = location ∧ diagnostic.code = code

/-- The findings that keep a scan from its first instruction. -/
def obstacles : List Diagnostic.Code :=
  [.ranIntoData, .ranIntoCode, .invalidInstruction, .brokenFixup, .overlappingInstruction]

/-- The findings that keep a scan from any instruction. -/
def hindrances : List Diagnostic.Code :=
  [.invalidInstruction, .brokenFixup, .ranIntoData, .overlappingInstruction]

theorem reports_report (state : Analysis) (location : Option Address) (code : Diagnostic.Code)
    (message : String) : (state.report location code message).Reports location code :=
  ⟨.found location code message, by simp [report], rfl, rfl⟩

theorem Refusal.code_mem_hindrances {decoder : Decoder} {image : Image} {here : Address}
    {offset : Nat} {code : Diagnostic.Code} (refusal : Refusal decoder image here offset code) :
    code ∈ hindrances := by
  cases refusal with
  | @undecodable error _ => cases error <;> simp [decodeCode, hindrances]
  | overlap _ overlap =>
      unfold overlapCode? at overlap
      split at overlap
      · cases overlap
      · split at overlap <;> cases overlap <;> decide

theorem Refusal.code_mem {decoder : Decoder} {image : Image} {here : Address} {offset : Nat}
    {code : Diagnostic.Code} (refusal : Refusal decoder image here offset code) :
    code ∈ obstacles := by
  have fewer : ∀ code ∈ hindrances, code ∈ obstacles := by decide
  exact fewer code refusal.code_mem_hindrances

/-- What is known of a target once a reference to it has been followed. -/
structure Answered (origin : Program) (state : Analysis) (reference : Reference) (target : Address) :
    Prop where
  unresolved : state.program.resolve target = none →
    state.Reports (reference.source.or (some target)) .unresolvedTarget
  outside : ∀ place, state.program.resolve target = some place →
    state.program.contains place = false →
      state.Reports (reference.source.or (some target)) .outOfImage
  inside : ∀ place, state.program.resolve target = some place →
    state.program.contains place = true →
      (∃ block ∈ state.blocks.blocks, block.first = place) ∨
        (∃ code ∈ obstacles, state.Reports (some target) code) ∨
        (origin.marksAt place).isCode = true

section Answers

variable {decoder : Decoder} {origin : Program} {before after : Moment} {state : Analysis}
  {reference : Reference} {target : Address} {place : Place}

theorem Answered.of_inside (reached : state.program.resolve target = some place)
    (within : state.program.contains place = true)
    (answer : (∃ block ∈ state.blocks.blocks, block.first = place) ∨
      (∃ code ∈ obstacles, state.Reports (some target) code) ∨
      (origin.marksAt place).isCode = true) :
    Answered origin state reference target where
  unresolved nowhere := by cases nowhere.symm.trans reached
  outside other arrived out := by
    obtain rfl := Option.some.inj (reached.symm.trans arrived)
    simp [within] at out
  inside other arrived _ := by
    obtain rfl := Option.some.inj (reached.symm.trans arrived)
    exact answer

theorem Finding.answered {location : Option Address} {code : Diagnostic.Code}
    (finding : Finding state.program reference target location code) (message : String) :
    Answered origin (state.report location code message) reference target := by
  have reported := state.reports_report location code message
  cases finding with
  | unresolved nowhere =>
      refine ⟨fun _ => reported, fun place arrived => ?_, fun place arrived => ?_⟩ <;>
        cases nowhere.symm.trans arrived
  | outside reached out =>
      refine ⟨fun _ => ?_, fun _ _ _ => reported, fun place arrived within => ?_⟩
      · rename_i nowhere
        cases nowhere.symm.trans reached
      · obtain rfl := Option.some.inj (reached.symm.trans arrived)
        simp [report, out] at within
  | data reached inside _ => exact .of_inside reached inside (.inr (.inl ⟨_, by decide, reported⟩))
  | follower reached inside _ _ =>
      exact .of_inside reached inside (.inr (.inl ⟨_, by decide, reported⟩))

/-- Findings are never taken back. -/
theorem Reports.step {location : Option Address} {code : Diagnostic.Code}
    (reports : before.state.Reports location code) (step : Step decoder before after) :
    after.state.Reports location code := by
  obtain ⟨diagnostic, member, found⟩ := reports
  refine ⟨diagnostic, ?_, found⟩
  cases step with
  | derive _ _ _ _ | note _ _ _ | refuse _ _ _ | advance _ _ _ _ => exact List.mem_append_left _ member
  | _ => exact member

theorem Answered.step (answered : Answered origin before.state reference target)
    (sound : Sound origin before) (regular : origin.Regular) (placed : decoder.Placed)
    (step : Step decoder before after) : Answered origin after.state reference target := by
  have remarked := step.remarked placed
  refine ⟨fun nowhere => ?_, fun place reached out => ?_, fun place reached within => ?_⟩
  · rw [remarked.resolve] at nowhere
    exact (answered.unresolved nowhere).step step
  · rw [remarked.resolve] at reached
    rw [remarked.contains] at out
    exact (answered.outside place reached out).step step
  · rw [remarked.resolve] at reached
    rw [remarked.contains] at within
    rcases answered.inside place reached within with starts | ⟨code, obstacle, reports⟩ | known
    · exact .inl ((sound.blocks_step regular step).keeps_first starts)
    · exact .inr (.inl ⟨code, obstacle, reports.step step⟩)
    · exact .inr (.inr known)

end Answers

/-- What following a task leads to. A scan that has marked nothing still stands at the target, and
one that is left without a byte has been refused there. -/
def Pursued (origin : Program) (state : Analysis) : Activity → Prop
  | .idle => True
  | .following _ => state.instructions < state.settings.maxInstructions
  | .scanning task start here offset => state.program.contains start = true ∧
      (offset = start.offset → state.instructions < state.settings.maxInstructions ∧
        task.reference.target = some here)
  | .leaving task start stop _ => state.program.contains start = true ∧
      (stop = start.offset → ∃ target, task.reference.target = some target ∧
        ∃ code ∈ obstacles, state.Reports (some target) code)
  | .settled task => ∀ target, task.reference.target = some target →
      Answered origin state task.reference target

section Pursuit

variable {decoder : Decoder} {origin : Program} {before after : Moment}

theorem pursued_activityBehind {state : Analysis} {task : Task} {start : Place} {here : Address}
    {instruction : Instruction} (inside : state.program.contains start = true)
    (longer : start.offset < instruction.stop) (program : Program) :
    Pursued origin state (activityBehind program task start instruction here) := by
  unfold activityBehind
  split
  · exact ⟨inside, fun nothing => absurd nothing (Nat.ne_of_gt longer)⟩
  · split
    · exact ⟨inside, fun nothing => absurd nothing (Nat.ne_of_gt longer)⟩
    · exact ⟨inside, fun nothing => absurd nothing (Nat.ne_of_gt longer)⟩

/-- A block starts where a task aims at an instruction, unless that is code of the origin. -/
theorem answered_of_splitAt {state : Analysis} {task : Task} {target : Address} {place : Place}
    {blocks : BlockIndex} (sound : Sound origin ⟨state, .following task⟩) (regular : origin.Regular)
    (reached : state.program.resolve target = some place)
    (starts : (state.program.marksAt place).startsCode = true)
    (done : state.splitAt place = .done { state with blocks }) :
    Answered origin { state with blocks } task.reference target := by
  have within : state.program.contains place = true := by
    by_contra outside
    rw [Bool.not_eq_true] at outside
    rw [(sound.regular regular).marksAt_of_outside outside] at starts
    cases starts
  refine .of_inside reached within ?_
  cases unknown : (origin.marksAt place).isUnknown with
  | true => exact .inl (first_of_splitAt sound regular starts done unknown)
  | false =>
      have same := sound.owned.remarked.marksAt_of_known unknown
      exact .inr (.inr (same ▸ Marks.isCode_of_startsCode starts))

theorem Pursued.step (pursued : Pursued origin before.state before.activity)
    (sound : Sound origin before) (regular : origin.Regular) (placed : decoder.Placed)
    (step : Step decoder before after) : Pursued origin after.state after.activity := by
  have remarked := step.remarked placed
  cases step with
  | enter _ | derive _ _ _ _ | dismiss _ | consume _ | record _ | forget _ => trivial
  | take _ room => exact room
  | skip dynamic =>
      intro target points
      cases dynamic.symm.trans points
  | note points finding message =>
      intro target alsoPoints
      obtain rfl := Option.some.inj (points.symm.trans alsoPoints)
      exact finding.answered message
  | cut points reached starts done =>
      intro target alsoPoints
      obtain rfl := Option.some.inj (points.symm.trans alsoPoints)
      exact answered_of_splitAt sound regular reached starts done
  | begin points _ inside _ => exact ⟨inside, fun _ => ⟨pursued, points⟩⟩
  -- The task was taken while there was room, so its first instruction is tried.
  | exhaust spent =>
      exact ⟨pursued.1, fun first => absurd (pursued.2 first).1 (Nat.not_lt_of_le spent)⟩
  | miss absent =>
      have inside := pursued.1
      simp [Program.contains, absent] at inside
  | refuse found refusal message =>
      refine ⟨pursued.1, fun first => ⟨_, (pursued.2 first).2, _, refusal.code_mem, ?_⟩⟩
      exact reports_report ..
  | advance _ found decoded unattributed =>
      obtain ⟨-, -, order⟩ := sound.located
      obtain ⟨free, behind⟩ := free_of_decoded placed found decoded unattributed
      have positive := free.1
      exact pursued_activityBehind ((remarked.contains _).trans pursued.1) (by omega) _
  | @close state task start stop exit blocks done =>
      intro target points
      obtain ⟨aimed, alsoPoints, reached⟩ := sound.located.1
      obtain rfl := Option.some.inj (points.symm.trans alsoPoints)
      refine .of_inside reached pursued.1 ?_
      rcases sound.close_cases regular done with ⟨nothing, rfl⟩ | ⟨-, grown⟩
      · obtain ⟨refused, refusedPoints, obstacle⟩ := pursued.2 nothing
        obtain rfl := Option.some.inj (points.symm.trans refusedPoints)
        exact .inr (.inl obstacle)
      · exact .inl (grown.exists_first_iff.mpr (.inl rfl))

end Pursuit

/-- Whatever has been recorded is answered, and so is what is about to be recorded. -/
structure Audited (origin : Program) (moment : Moment) : Prop where
  pursued : Pursued origin moment.state moment.activity
  answered : ∀ reference ∈ moment.state.references.toList, ∀ target,
    reference.target = some target → Answered origin moment.state reference target

namespace Audited

variable {decoder : Decoder} {origin : Program} {before after : Moment}

theorem fresh (program : Program) (settings : Settings) :
    Audited program ⟨.fresh program settings, .idle⟩ where
  pursued := trivial
  answered reference member := by simp [Analysis.fresh] at member

theorem step (audited : Audited origin before) (sound : Sound origin before)
    (regular : origin.Regular) (placed : decoder.Placed) (step : Step decoder before after) :
    Audited origin after := by
  refine ⟨audited.pursued.step sound regular placed step, fun reference member target points => ?_⟩
  refine Answered.step ?_ sound regular placed step
  cases step with
  | record _ =>
      rw [Graph.toList_add, List.mem_append, List.mem_singleton] at member
      rcases member with earlier | rfl
      · exact audited.answered reference earlier target points
      · exact audited.pursued target points
  | _ => exact audited.answered reference member target points

theorem steps {program : Program} {settings : Settings} {moment : Moment} (regular : program.Regular)
    (placed : decoder.Placed) (steps : Steps decoder ⟨.fresh program settings, .idle⟩ moment) :
    Audited program moment := by
  induction steps with
  | refl => exact .fresh program settings
  | tail earlier step ih => exact ih.step (.steps regular placed earlier) regular placed step

end Audited

/-- No recorded target is lost silently: a finding says that it does not resolve or lies outside its
image, and otherwise a block starts there, a finding at the target says why none does, or the byte was
code before the search. -/
theorem findBlocks_answers_for_targets {program : Program} {decoder : Decoder} (built : program.Built)
    (placed : decoder.Placed) (settings : Settings) (entries : List EntryPoint) :
    let outcome := findBlocks decoder (.fresh program settings) entries
    outcome.fault = none ∧
    ∀ reference ∈ outcome.state.references.toList, ∀ target, reference.target = some target →
      (outcome.state.program.resolve target = none →
        outcome.state.Reports (reference.source.or (some target)) .unresolvedTarget) ∧
      (∀ place, outcome.state.program.resolve target = some place →
        (outcome.state.program.contains place = false →
          outcome.state.Reports (reference.source.or (some target)) .outOfImage) ∧
        (outcome.state.program.contains place = true →
          (∃ block ∈ outcome.state.blocks.blocks, block.first = place) ∨
          (∃ code ∈ obstacles, outcome.state.Reports (some target) code) ∨
          (program.marksAt place).isCode = true)) := by
  intro outcome
  have start : Reached decoder program settings (.fresh program settings) := .refl
  obtain ⟨faultless, reached⟩ := start.findBlocks built.regular placed entries
  have audited := Audited.steps built.regular placed reached
  refine ⟨faultless, fun reference member target points => ?_⟩
  obtain ⟨unresolved, outside, inside⟩ := audited.answered reference member target points
  exact ⟨unresolved, fun place arrived => ⟨outside place arrived, inside place arrived⟩⟩

/-- Entry points at an instruction, at a byte known to be data, behind the image and in a segment
that does not exist. -/
theorem sample_findBlocks_answers :
    let targets : List Address := [⟨.segment 0, 0⟩, ⟨.segment 0, 13⟩, ⟨.segment 0, 14⟩, ⟨.segment 1, 0⟩]
    let final := (findBlocks sampleDecoder (.fresh sample {})
      (targets.map fun target => ⟨target, none, .near⟩)).state
    sample.Built ∧ sampleDecoder.Placed ∧
      (∀ target ∈ targets, Reference.toEntry target ∈ final.references.toList) ∧
      ((∃ block ∈ final.blocks.blocks, block.first = ⟨0, 13⟩) ∨
        (∃ code ∈ obstacles, final.Reports (some ⟨.segment 0, 13⟩) code) ∨
        (sample.marksAt ⟨0, 13⟩).isCode = true) ∧
      final.Reports (some ⟨.segment 0, 14⟩) .outOfImage ∧
      final.Reports (some ⟨.segment 1, 0⟩) .unresolvedTarget := by
  intro targets final
  have recorded : ∀ target ∈ targets, Reference.toEntry target ∈ final.references.toList := by
    decide +kernel
  obtain ⟨-, answers⟩ := findBlocks_answers_for_targets sample_built sampleDecoder_placed {}
    (targets.map fun target => ⟨target, none, .near⟩)
  have data := answers _ (recorded ⟨.segment 0, 13⟩ (by decide)) _ rfl
  have outside := answers _ (recorded ⟨.segment 0, 14⟩ (by decide)) _ rfl
  have unresolved := answers _ (recorded ⟨.segment 1, 0⟩ (by decide)) _ rfl
  exact ⟨sample_built, sampleDecoder_placed, recorded,
    (data.2 ⟨0, 13⟩ (by decide +kernel)).2 (by decide +kernel),
    (outside.2 ⟨0, 14⟩ (by decide +kernel)).1 (by decide +kernel), unresolved.1 (by decide +kernel)⟩

end RealMode.Analysis
