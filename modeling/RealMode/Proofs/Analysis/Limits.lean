import RealMode.Proofs.Analysis.Draining
import RealMode.Proofs.Analysis.Growth
import RealMode.Proofs.Analysis.Tasks

/-! Searches that a limit cuts short.

Up to its limit a search goes the same way as one with larger limits. The limit strikes between two
tasks, or before an instruction of a scan. Then the bytes before that instruction become a block, the
task is recorded, and the search is at its end. In the longer search the block starts at the same
place, and the same task is the next to be recorded. -/

set_option autoImplicit false

namespace RealMode.Analysis

/-- What `short` has found, recorded and noted is what `long` began with. -/
structure StartOf (short long : Analysis) : Prop where
  references : short.references.toList <+: long.references.toList
  diagnostics : short.diagnostics <+: long.diagnostics
  remarked : short.program.Remarked long.program
  starts : ∀ block ∈ short.blocks.blocks, ∃ other ∈ long.blocks.blocks, other.first = block.first

theorem Grows.startOf {before after : Analysis} (grows : before.Grows after) : before.StartOf after :=
  ⟨grows.references, grows.diagnostics, grows.remarked,
    fun block member => grows.exists_first ⟨block, member, rfl⟩⟩

theorem StartOf.trans {short middle long : Analysis} (first : short.StartOf middle)
    (second : middle.StartOf long) : short.StartOf long := by
  refine ⟨first.references.trans second.references, first.diagnostics.trans second.diagnostics,
    first.remarked.trans second.remarked, fun block member => ?_⟩
  obtain ⟨other, otherMember, same⟩ := first.starts block member
  obtain ⟨last, lastMember, again⟩ := second.starts other otherMember
  exact ⟨last, lastMember, again.trans same⟩

theorem StartOf.of_under {short long : Analysis} {settings : Settings}
    (startOf : (short.under settings).StartOf long) : short.StartOf long :=
  ⟨startOf.references, startOf.diagnostics, startOf.remarked, startOf.starts⟩

/-- What a scan from `start` has marked is a block, or it will become one. -/
inductive Opened (start : Place) (moment : Moment) : Prop where
  | scanning {task : Task} {here : Address} {offset : Nat}
      (scans : moment.activity = .scanning task start here offset) (filled : start.offset < offset)
  | leaving {task : Task} {stop : Nat} {exit : Block.Exit}
      (leaves : moment.activity = .leaving task start stop exit) (filled : start.offset < stop)
  | block (starts : ∃ block ∈ moment.state.blocks.blocks, block.first = start)

section Opened

variable {origin : Program} {decoder : Decoder} {start : Place} {before after : Moment}

theorem opened_activityBehind {program : Program} {task : Task} {instruction : Instruction}
    {here : Address} (filled : start.offset < instruction.stop)
    (same : after.activity = activityBehind program task start instruction here) :
    Opened start after := by
  unfold activityBehind at same
  split at same
  · exact .leaving same filled
  · split at same
    · exact .leaving same filled
    · exact .scanning same filled

theorem Opened.step (opened : Opened start before) (sound : Sound origin before)
    (regular : origin.Regular) (placed : decoder.Placed) (step : Step decoder before after) :
    Opened start after := by
  cases opened with
  | scanning scans filled =>
      cases step with
      | enter _ | derive _ _ _ _ | take _ _ | dismiss _ | consume _ | skip _ _ | note _ _ _
      | cut _ _ _ _ | begin _ _ _ _ | close _ | record _ | forget _ => cases scans
      | exhaust _ | miss _ | refuse _ _ _ =>
          cases scans
          exact .leaving rfl filled
      | advance _ found decoded unattributed =>
          cases scans
          obtain ⟨-, behind⟩ := free_of_decoded placed found decoded unattributed
          exact opened_activityBehind (by omega) rfl
  | leaving leaves filled =>
      cases step with
      | enter _ | derive _ _ _ _ | take _ _ | dismiss _ | consume _ | skip _ _ | note _ _ _
      | cut _ _ _ _ | begin _ _ _ _ | exhaust _ | miss _ | refuse _ _ _ | advance _ _ _ _
      | record _ | forget _ => cases leaves
      | close done =>
          cases leaves
          rcases sound.close_cases regular done with ⟨nothing, -⟩ | ⟨-, grown⟩
          · exact absurd nothing (Nat.ne_of_gt filled)
          · exact .block (grown.exists_first_iff.mpr (.inl rfl))
  | block starts => exact .block ((sound.blocks_step regular step).keeps_first starts)

theorem Opened.steps (opened : Opened start before) (sound : Sound origin before)
    (regular : origin.Regular) (placed : decoder.Placed) (steps : Steps decoder before after) :
    Opened start after := by
  induction steps with
  | refl => exact opened
  | tail earlier step ih =>
      exact ih.step (sound.of_steps regular placed earlier) regular placed step

end Opened

section Scan

variable {decoder : Decoder} {state : Analysis} {settings : Settings}

/-- A scan with a smaller budget ends like one with a larger budget, or the budget is used up before
an instruction at which the other scan goes on. -/
theorem scan_cases (agrees : state.settings.Agrees settings) (task : Task) (start : Place)
    {budget other : Nat} {here : Address} {offset : Nat} (fewer : budget ≤ other)
    (exact : state.settings.maxInstructions - state.instructions = budget) :
    scan decoder start.image other (state.under settings) here offset =
        (scan decoder start.image budget state here offset).under settings ∨
      ∃ middle next stop,
        scan decoder start.image budget state here offset = ⟨middle, stop, .ok .incomplete⟩ ∧
        scan decoder start.image other (state.under settings) here offset =
          scan decoder start.image (other - budget) (middle.under settings) next stop ∧
        middle.instructions = state.instructions + budget ∧
        middle.settings = state.settings ∧
        Proceeds decoder ⟨state, .scanning task start here offset⟩
          ⟨middle, .scanning task start next stop⟩ := by
  induction budget generalizing state other here offset with
  | zero => exact .inr ⟨state, here, offset, rfl, rfl, rfl, rfl, .refl⟩
  | succ budget ih =>
      obtain ⟨other, rfl⟩ := Nat.exists_eq_add_one_of_ne_zero (Nat.ne_zero_of_lt fewer)
      have room : state.instructions < state.settings.maxInstructions := by omega
      have step := @visit_step decoder task start state here offset room
      rw [scan, scan, visit_under agrees]
      cases visited : visit decoder state start.image here offset with
      | refused after | left after stop exit | failed after fault => exact .inl rfl
      | passed after next stop =>
          rw [visited] at step
          obtain ⟨kept, counted, step⟩ := step
          have marks : (after.under settings).program = after.program := rfl
          dsimp only [Visit.under]
          rw [marks]
          split
          · exact .inl rfl
          · rename_i unknown
            rw [if_neg unknown] at step
            rcases ih (kept ▸ agrees) (Nat.le_of_succ_le_succ fewer) (by rw [kept]; omega) with
              same | ⟨middle, later, behind, ended, goesOn, spent, settled, proceeds⟩
            · exact .inl same
            · refine .inr ⟨middle, later, behind, ended, ?_, by omega, settled.trans kept,
                .head step.works proceeds⟩
              rw [goesOn, Nat.add_sub_add_right]

end Scan

theorem Sound.under {origin : Program} {state : Analysis} {activity : Activity}
    (sound : Sound origin ⟨state, activity⟩) (settings : Settings) :
    Sound origin ⟨state.under settings, activity⟩ where
  owned := sound.owned.congr rfl rfl rfl rfl
  located := sound.located
  grounded reference mentioned := sound.grounded reference (mentioned.of_same rfl rfl fun _ same => same)

/-- A scan that is cut short begins like the scan that goes on: the block of either starts where the
scan did. -/
theorem closeBlock_startOf {decoder : Decoder} {origin : Program} {state : Analysis}
    {settings : Settings} {task : Task} {start : Place} {here : Address} {offset rest : Nat}
    (sound : Sound origin ⟨state, .scanning task start here offset⟩) (regular : origin.Regular)
    (placed : decoder.Placed) (spent : state.settings.maxInstructions ≤ state.instructions)
    (exact : settings.maxInstructions - state.instructions = rest) :
    let short := closeBlock ⟨state, offset, .ok .incomplete⟩ start
    let long := closeBlock (scan decoder start.image rest (state.under settings) here offset) start
    short.state.instructions = state.instructions ∧ short.state.StartOf long.state := by
  intro short long
  have leads : Leads Step decoder ⟨state.under settings, .scanning task start here offset⟩ long
      (.settled task) := (scan_leads task start exact).mono fun _ _ => And.left
  have steps := (leads.steps (fun _ _ => id) (sound.under settings) regular placed).2
  have grows := Steps.grows (sound.under settings) regular placed steps
  have left : Sound origin ⟨state, .leaving task start offset .incomplete⟩ :=
    sound.step regular placed (.exhaust spent)
  rcases left.closeBlock_eq regular with ⟨-, done⟩ | ⟨filled, blocks, grown, done⟩
  · rw [show short = _ from done]
    exact ⟨rfl, grows.startOf.of_under⟩
  · have opened : Opened start ⟨long.state, .settled task⟩ :=
      Opened.steps (.scanning rfl filled) (sound.under settings) regular placed steps
    rw [show short = _ from done]
    refine ⟨rfl, grows.references, grows.diagnostics, grows.remarked, fun block member => ?_⟩
    rcases (grown.mem_iff block).mp member with rfl | earlier
    · cases opened with
      | scanning scans => cases scans
      | leaving leaves => cases leaves
      | block starts => exact starts
    · exact grows.exists_first ⟨block, earlier, rfl⟩

/-- The short way from `state` has come to the limit, and it is how the long way begins. -/
def CutShort (state : Analysis) (short long : Outcome) : Prop :=
  state.settings.maxInstructions ≤ short.state.instructions ∧ short.state.StartOf long.state

section Tasks

variable {decoder : Decoder} {origin : Program} {state : Analysis} {settings : Settings} {task : Task}
  (sound : Sound origin ⟨state, .following task⟩) (regular : origin.Regular)
  (placed : decoder.Placed) (agrees : state.settings.Agrees settings)
  (lower : state.settings.maxInstructions ≤ settings.maxInstructions)

include sound regular placed agrees lower

theorem explore_cases {target : Address} {start : Place}
    (points : task.reference.target = some target)
    (reached : state.program.resolve target = some start)
    (inside : state.program.contains start = true) :
    explore decoder (state.under settings) target start =
        (explore decoder state target start).under settings ∨
      state.CutShort (explore decoder state target start)
        (explore decoder (state.under settings) target start) := by
  have program : (state.under settings).program = state.program := rfl
  unfold explore
  simp only [program]
  split
  · exact .inl rfl
  · rename_i notData
    split
    · split
      · exact .inl (splitAt_under ..)
      · exact .inl rfl
    · rename_i notCode
      have unknown : (state.program.marksAt start).isUnknown = true :=
        Marks.isUnknown_iff.mpr ⟨Bool.eq_false_iff.mpr notCode, Bool.eq_false_iff.mpr notData⟩
      rcases scan_cases agrees task start (Nat.sub_le_sub_right lower state.instructions) rfl with
        same | ⟨middle, next, stop, ended, goesOn, spent, kept, proceeds⟩
      · left
        exact (congrArg (closeBlock · start) same).trans (closeBlock_under ..)
      · right
        have begun : Step decoder ⟨state, .following task⟩ ⟨state, .scanning task start target _⟩ :=
          .begin points reached inside unknown
        have steps := Relation.ReflTransGen.head begun proceeds.steps
        have exhausted : state.settings.maxInstructions ≤ middle.instructions := by omega
        have rest : settings.maxInstructions - middle.instructions =
            settings.maxInstructions - state.instructions -
              (state.settings.maxInstructions - state.instructions) := by omega
        obtain ⟨counted, startOf⟩ := closeBlock_startOf (sound.of_steps regular placed steps) regular
          placed (kept ▸ exhausted) rest
        rw [← ended] at counted startOf
        rw [← goesOn] at startOf
        exact ⟨exhausted.trans (Nat.le_of_eq counted.symm), startOf⟩

theorem follow_cases {target : Address} (points : task.reference.target = some target) :
    follow decoder (state.under settings) task.reference target =
        (follow decoder state task.reference target).under settings ∨
      state.CutShort (follow decoder state task.reference target)
        (follow decoder (state.under settings) task.reference target) := by
  have program : (state.under settings).program = state.program := rfl
  unfold follow
  simp only [program]
  split
  · exact .inl rfl
  · rename_i start reached
    split
    · rename_i inside
      exact explore_cases sound regular placed agrees lower points reached inside
    · exact .inl rfl

theorem process_cases :
    process decoder (state.under settings) task = (process decoder state task).under settings ∨
      state.CutShort (process decoder state task) (process decoder (state.under settings) task) := by
  cases points : task.reference.target with
  | none =>
      refine .inl (process_under_of_follow fun target found => ?_)
      rw [points] at found
      cases found
  | some target =>
      rcases follow_cases sound regular placed agrees lower points with same | ⟨spent, startOf⟩
      · refine .inl (process_under_of_follow fun other found => ?_)
        rw [points] at found
        cases found
        exact same
      -- Both ways record the task next, and they have recorded the same before.
      · right
        have short := ((process_leads state task).steps (fun _ _ => And.left) sound regular placed).1
        have long := ((process_leads _ task).steps (fun _ _ => And.left) (sound.under settings)
          regular placed).1
        have ready := ready_of_target points
        obtain ⟨followed, found, result⟩ := process_eq_done ready (Outcome.eq_done short)
        obtain ⟨further, longFound, longResult⟩ := process_eq_done ready (Outcome.eq_done long)
        rw [pursue_of_target points] at found longFound
        have recorded : followed.references = state.references := by
          rw [← references_follow decoder state task.reference target, found]
          rfl
        have longRecorded : further.references = state.references := by
          have kept := references_follow decoder (state.under settings) task.reference target
          rw [longFound] at kept
          exact kept
        rw [found] at spent startOf
        rw [longFound] at startOf
        unfold CutShort
        rw [result, longResult]
        split
        · have same : followed.references = further.references := recorded.trans longRecorded.symm
          exact ⟨spent, same ▸ List.prefix_rfl, startOf.diagnostics, startOf.remarked,
            startOf.starts⟩
        · exact ⟨spent, startOf⟩

end Tasks

/-- Nothing is done once the limit has been reached. -/
theorem drain_of_spent {decoder : Decoder} {state : Analysis}
    (spent : state.settings.maxInstructions ≤ state.instructions) (budget : Nat) :
    drain decoder budget state = .done state := by
  cases budget with
  | zero => rfl
  | succ budget =>
      rw [drain]
      split
      · rfl
      · rw [if_pos spent]

section Searches

variable {decoder : Decoder} {program : Program} {own settings : Settings} {state : Analysis}
  (regular : program.Regular) (placed : decoder.Placed)

include regular placed

theorem Reached.drain_grows (reached : Reached decoder program own state) (budget : Nat) :
    state.Grows (drain decoder budget state).state := by
  have sound := reached.sound regular placed
  have proceeds : Proceeds decoder _ _ :=
    ((drain_leads budget state).steps (fun _ _ => And.left) sound regular placed).2
  exact Steps.grows sound regular placed proceeds.steps

/-- However far the longer search goes on, the shorter one may stop here. -/
theorem Reached.startOf_drain (longReached : Reached decoder program settings (state.under settings))
    (budget : Nat) : state.StartOf (drain decoder budget (state.under settings)).state :=
  (longReached.drain_grows regular placed budget).startOf.of_under

theorem drain_startOf {budget other : Nat} (reached : Reached decoder program own state)
    (longReached : Reached decoder program settings (state.under settings))
    (agrees : state.settings.Agrees settings) (fewer : budget ≤ other)
    (lower : state.settings.maxInstructions ≤ settings.maxInstructions) :
    (drain decoder budget state).state.StartOf
      (drain decoder other (state.under settings)).state := by
  induction budget generalizing other state with
  | zero => exact longReached.startOf_drain regular placed other
  | succ budget ih =>
      cases next : state.pending.next? with
      | none =>
          rw [drain_of_empty (Queue.next?_eq_none_iff.mp next)]
          exact longReached.startOf_drain regular placed other
      | some taken =>
          obtain ⟨task, rest⟩ := taken
          by_cases spent : state.settings.maxInstructions ≤ state.instructions
          · rw [drain_of_spent spent]
            exact longReached.startOf_drain regular placed other
          · obtain ⟨other, rfl⟩ := Nat.exists_eq_add_one_of_ne_zero (Nat.ne_zero_of_lt fewer)
            have room : state.instructions < state.settings.maxInstructions := by omega
            have longRoom : (state.under settings).instructions <
                (state.under settings).settings.maxInstructions := Nat.lt_of_lt_of_le room lower
            have longNext : (state.under settings).pending.next? = some (task, rest) := next
            obtain ⟨faultless, later, kept, -⟩ := process_reached regular placed reached next room
            obtain ⟨longFaultless, longLater, -, -⟩ :=
              process_reached regular placed longReached longNext longRoom
            have taken := Sound.steps regular placed (reached.tail (.take next room))
            rw [drain_of_next next room faultless, drain_of_next longNext longRoom longFaultless]
            rcases process_cases taken regular placed agrees lower with same | ⟨struck, startOf⟩
            · have same : process decoder { state.under settings with pending := rest } task =
                  (process decoder { state with pending := rest } task).under settings := same
              rw [same] at longLater ⊢
              exact ih later longLater (by rwa [kept]) (Nat.le_of_succ_le_succ fewer) (by rwa [kept])
            · rw [drain_of_spent (by rw [kept]; exact struck)]
              exact startOf.trans (longLater.drain_grows regular placed other).startOf

omit regular placed in
/-- An instruction is decoded only if the limit leaves room for it. -/
theorem Reached.instructions_le_limit (reached : Reached decoder program settings state) :
    state.settings = settings ∧ state.instructions ≤ settings.maxInstructions := by
  have bounded : ∀ moment, Steps decoder ⟨.fresh program settings, .idle⟩ moment →
      moment.state.settings = settings ∧ moment.state.instructions ≤ settings.maxInstructions := by
    intro moment steps
    induction steps with
    | refl => exact ⟨rfl, Nat.zero_le _⟩
    | tail _ step ih =>
        refine ⟨step.settings.trans ih.1, ?_⟩
        cases step with
        | advance room _ _ _ => exact ih.1 ▸ room
        | _ => exact ih.2
  exact bounded _ reached

end Searches

/-- Limits only cut a search short: what it has recorded and noted is the beginning of what a search
with larger limits records and notes, its bytes have the same marks there, and its blocks start there,
too. It never decodes more instructions than its limit allows. -/
theorem findBlocks_cut_short {program : Program} {decoder : Decoder} (built : program.Built)
    (placed : decoder.Placed) (settings : Settings) (entries : List EntryPoint)
    (maxTasks maxInstructions : Nat) (fewer : maxTasks ≤ settings.maxTasks)
    (lower : maxInstructions ≤ settings.maxInstructions) :
    let short := findBlocks decoder (.fresh program { settings with maxTasks, maxInstructions }) entries
    let long := findBlocks decoder (.fresh program settings) entries
    short.fault = none ∧ long.fault = none ∧
    short.state.references.toList <+: long.state.references.toList ∧
    short.state.diagnostics <+: long.state.diagnostics ∧
    (∀ place, (short.state.program.marksAt place).isUnknown = false →
      long.state.program.marksAt place = short.state.program.marksAt place) ∧
    (∀ block ∈ short.state.blocks.blocks,
      ∃ other ∈ long.state.blocks.blocks, other.first = block.first) ∧
    short.state.instructions ≤ maxInstructions := by
  intro short long
  let limits : Settings := { settings with maxTasks, maxInstructions }
  have start : Reached decoder program limits (.fresh program limits) := .refl
  have longStart : Reached decoder program settings (.fresh program settings) := .refl
  have found : Reaches decoder program limits short := start.findBlocks built.regular placed entries
  have longFound : Reaches decoder program settings long :=
    longStart.findBlocks built.regular placed entries
  have entered := start.tail (enter_step _ entries)
  have longEntered := longStart.tail (enter_step _ entries)
  have same : (fresh program settings).enter entries =
      ((fresh program limits).enter entries).under settings := by
    rw [enter_eq, enter_eq]
    rfl
  have kept : ((fresh program limits).enter entries).settings = limits := by
    rw [enter_eq]
    rfl
  have startOf : short.state.StartOf long.state := by
    rw [same] at longEntered
    simp only [short, long, findBlocks, same]
    refine drain_startOf built.regular placed entered longEntered ?_ fewer ?_
    · rw [kept]
      exact ⟨rfl, rfl⟩
    · rw [kept]
      exact lower
  exact ⟨found.faultless, longFound.faultless, startOf.references, startOf.diagnostics,
    fun place known => startOf.remarked.marksAt_of_known known, startOf.starts,
    found.reached.instructions_le_limit.2⟩

/-- With room for one instruction, the block is cut short before the jump. -/
theorem sample_findBlocks_cut_short :
    let entries : List EntryPoint := [⟨⟨.segment 0, 2⟩, none, .near⟩]
    let limits : Settings := { maxTasks := 1, maxInstructions := 1 }
    let short := (findBlocks sampleDecoder (.fresh sample limits) entries).state
    let long := (findBlocks sampleDecoder (.fresh sample {}) entries).state
    sample.Built ∧ sampleDecoder.Placed ∧ limits.maxTasks ≤ ({} : Settings).maxTasks ∧
      limits.maxInstructions ≤ ({} : Settings).maxInstructions ∧
      short.blocks.blocks = [⟨0, 2, 4, .incomplete⟩] ∧
      (⟨0, 2, 8, .terminated⟩ : Block) ∈ long.blocks.blocks ∧
      short.references.toList <+: long.references.toList ∧ short.instructions ≤ 1 := by
  intro entries limits short long
  obtain ⟨-, -, references, -, -, -, bounded⟩ := findBlocks_cut_short sample_built
    sampleDecoder_placed {} entries 1 1 (by decide) (by decide)
  exact ⟨sample_built, sampleDecoder_placed, by decide, by decide, by decide +kernel,
    by decide +kernel, references, bounded⟩

end RealMode.Analysis
