import RealMode.Proofs.Analysis.Calls
import RealMode.Proofs.Analysis.Settings

/-! Searches that come to an end by themselves.

A task is an entry point, or an instruction or a slot that has just been marked has raised it, and
neither of these raises more than two. So the tasks that wait and two for each unknown byte bound the
tasks that are still to be done. Limits beyond that bound stop nothing and make no difference. -/

set_option autoImplicit false

namespace RealMode.Analysis

/-- The tasks that wait, and two for each byte that may still be marked. -/
def load (state : Analysis) : Nat :=
  state.pending.toList.length + 2 * state.program.unknownBytes

theorem empty_of_load {state : Analysis} (nothing : state.load = 0) : state.pending.toList = [] := by
  unfold load at nothing
  exact List.eq_nil_of_length_eq_zero (by omega)

theorem length_departures_le (state : Analysis) (instruction : Instruction) (here : Address) :
    (state.departures instruction here).length ≤ 2 := by
  unfold departures
  split
  · simp
  · simp
  · simp
  · simp
  · simp
  · split <;> simp
  · cases following? instruction here <;> simp

theorem length_enqueueAll (queue : Agenda) (tasks : List Task) :
    (tasks.foldl Queue.enqueue queue).toList.length = tasks.length + queue.toList.length := by
  rw [(queue.toList_enqueueAll_perm tasks).length_eq, List.length_append]

section Load

variable {decoder : Decoder} {origin : Program} {before after : Moment}

/-- What a step puts on the agenda it pays for with bytes that become known. -/
theorem Works.load_le (works : Works decoder before after) (sound : Sound origin before)
    (regular : origin.Regular) (placed : decoder.Placed) : after.state.load ≤ before.state.load := by
  obtain ⟨step, busy⟩ := works
  have kept := sound.regular regular
  cases step with
  | enter _ | derive _ _ _ _ => exact absurd ⟨rfl, rfl⟩ busy
  | @take state task rest next _ =>
      have taken := congrArg List.length (Queue.toList_of_next? next)
      simp only [load, List.length_cons] at taken ⊢
      omega
  | @consume state task source slot reads =>
      have fewer := reads.free.unknownBytes_paint kept (by decide : Content.data ≠ .padding)
      have raised : (Task.recorded slot.reference ::
          (slot.next.map Task.recorded).toList).length ≤ 2 := by
        cases slot.next <;> simp
      simp only [load, consumed, length_enqueueAll]
      omega
  | @advance state task start here offset image instruction _ found decoded unattributed =>
      obtain ⟨free, -⟩ := free_of_decoded placed found decoded unattributed
      have fewer := free.unknownBytes_paint kept (by decide : Content.code ≠ .padding)
      have raised := length_departures_le
        (state.markInstruction start.image offset instruction.length) instruction here
      have program : (state.markInstruction start.image offset instruction.length).program =
          state.program.paint .code ⟨start.image, offset⟩ instruction.length := rfl
      have pending : (state.markInstruction start.image offset instruction.length).pending =
          state.pending := rfl
      simp only [load, departed, length_enqueueAll, program, pending]
      omega
  | _ => exact Nat.le_refl _

theorem Proceeds.load_le {program : Program} {settings : Settings} (regular : program.Regular)
    (placed : decoder.Placed) (earlier : Steps decoder ⟨.fresh program settings, .idle⟩ before)
    (proceeds : Proceeds decoder before after) : after.state.load ≤ before.state.load := by
  induction proceeds with
  | refl => exact Nat.le_refl _
  | tail steps works ih =>
      have sound := Sound.steps regular placed (earlier.trans (Proceeds.steps steps))
      exact (works.load_le sound regular placed).trans ih

end Load

theorem drain_of_empty {decoder : Decoder} {budget : Nat} {state : Analysis}
    (empty : state.pending.toList = []) : drain decoder budget state = .done state := by
  cases budget with
  | zero => rfl
  | succ budget => rw [drain, Queue.next?_eq_none_iff.mpr empty]

theorem drain_of_next {decoder : Decoder} {budget : Nat} {state : Analysis} {task : Task}
    {rest : Agenda} (next : state.pending.next? = some (task, rest))
    (room : state.instructions < state.settings.maxInstructions)
    (faultless : (process decoder { state with pending := rest } task).fault = none) :
    drain decoder (budget + 1) state =
      drain decoder budget (process decoder { state with pending := rest } task).state := by
  rw [drain, next]
  dsimp only
  rw [if_neg (Nat.not_le_of_lt room)]
  simp only [faultless]

section Tasks

variable {decoder : Decoder} {program : Program} {own settings : Settings} {state : Analysis}
  (regular : program.Regular) (placed : decoder.Placed)

include regular placed

theorem Reached.instructions_le (reached : Reached decoder program own state) :
    state.instructions + state.program.unknownBytes ≤ program.unknownBytes := by
  have owned : Owned program state fun _ => False := (reached.sound regular placed).owned
  rw [owned.counted]
  exact owned.remarked.startsGained_le

/-- A task that is done leaves less to do. -/
theorem process_reached {task : Task} {rest : Agenda} (reached : Reached decoder program own state)
    (next : state.pending.next? = some (task, rest))
    (room : state.instructions < state.settings.maxInstructions) :
    (process decoder { state with pending := rest } task).fault = none ∧
      Reached decoder program own (process decoder { state with pending := rest } task).state ∧
      (process decoder { state with pending := rest } task).state.settings = state.settings ∧
      (process decoder { state with pending := rest } task).state.load < state.load := by
  have taken := reached.tail (.take next room)
  have leads : Leads Works decoder ⟨{ state with pending := rest }, .following task⟩
      (process decoder { state with pending := rest } task) .idle :=
    (process_leads _ task).mono fun _ _ => Pursues.works
  obtain ⟨faultless, proceeds⟩ :=
    leads.steps (fun _ _ => And.left) (.steps regular placed taken) regular placed
  have lighter := Proceeds.load_le regular placed taken proceeds
  have first := congrArg List.length (Queue.toList_of_next? next)
  refine ⟨faultless, taken.trans (Proceeds.steps proceeds), congrArg (·.1) (standing_process ..), ?_⟩
  simp only [load, List.length_cons] at lighter first ⊢
  omega

/-- A budget for everything that may be left to do lasts until nothing is left. -/
theorem drain_empties {budget : Nat} (reached : Reached decoder program own state)
    (ample : program.unknownBytes < state.settings.maxInstructions) (enough : state.load ≤ budget) :
    (drain decoder budget state).state.pending.toList = [] := by
  induction budget generalizing state with
  | zero => exact empty_of_load (Nat.eq_zero_of_le_zero enough)
  | succ budget ih =>
      cases next : state.pending.next? with
      | none =>
          have empty := Queue.next?_eq_none_iff.mp next
          rw [drain_of_empty empty]
          exact empty
      | some taken =>
          have counted := reached.instructions_le regular placed
          have room : state.instructions < state.settings.maxInstructions := by omega
          obtain ⟨faultless, later, kept, lighter⟩ :=
            process_reached regular placed reached next room
          rw [drain_of_next next room faultless]
          exact ih later (by rwa [kept]) (by omega)

end Tasks

section Limits

variable {decoder : Decoder} {state : Analysis} {settings : Settings}

/-- An instruction behind which a scan goes on has been marked. -/
theorem visit_passed (placed : decoder.Placed) {image : Nat} {here next : Address}
    {offset stop : Nat} {after : Analysis}
    (passed : visit decoder state image here offset = .passed after next stop) :
    ∃ length, state.program.Free ⟨image, offset⟩ length ∧
      after.program = state.program.paint .code ⟨image, offset⟩ length ∧
      after.instructions = state.instructions + 1 := by
  unfold visit at passed
  split at passed
  · cases passed
  · rename_i found looked
    split at passed
    · cases passed
    · rename_i instruction decoded
      split at passed
      · cases passed
      · rename_i clear
        split at passed
        · cases passed
        · rw [depart_eq] at passed
          obtain ⟨free, -⟩ := free_of_decoded placed looked decoded
            (overlapCode?_eq_none_iff.mp clear)
          split at passed
          · cases passed
          · cases passed
            exact ⟨instruction.length, free, rfl, rfl⟩

/-- A scan marks a byte with each instruction, so any two budgets beyond the unknown bytes will do. -/
theorem scan_under (placed : decoder.Placed) {image budget other : Nat} {here : Address}
    {offset : Nat} (regular : state.program.Regular) (agrees : state.settings.Agrees settings)
    (ample : state.program.unknownBytes < budget) (otherAmple : state.program.unknownBytes < other) :
    scan decoder image other (state.under settings) here offset =
      (scan decoder image budget state here offset).under settings := by
  induction budget generalizing other state here offset with
  | zero => omega
  | succ budget ih =>
      obtain ⟨other, rfl⟩ := Nat.exists_eq_add_one_of_ne_zero (Nat.ne_zero_of_lt otherAmple)
      rw [scan, scan, visit_under agrees]
      cases visited : visit decoder state image here offset with
      | refused after => rfl
      | left after stop exit => rfl
      | failed after fault => rfl
      | passed after next stop =>
          obtain ⟨length, free, program, -⟩ := visit_passed placed visited
          have fewer := free.unknownBytes_paint regular (by decide : Content.code ≠ .padding)
          have standing := standing_visit decoder state image here offset
          rw [visited] at standing
          have kept : after.settings = state.settings := congrArg (·.1) standing
          have marks : (after.under settings).program = after.program := rfl
          rw [← program] at fewer
          dsimp only [Visit.under]
          rw [marks]
          split
          · rfl
          · exact ih (by rw [program]; exact (free.remarked (by decide)).regular regular)
              (by rwa [kept]) (by omega) (by omega)

variable (placed : decoder.Placed) (regular : state.program.Regular)
  (agrees : state.settings.Agrees settings)
  (ample : state.instructions + state.program.unknownBytes < state.settings.maxInstructions)
  (otherAmple : state.instructions + state.program.unknownBytes < settings.maxInstructions)

include placed regular agrees ample otherAmple

theorem explore_under (target : Address) (start : Place) :
    explore decoder (state.under settings) target start =
      (explore decoder state target start).under settings := by
  have program : (state.under settings).program = state.program := rfl
  have scanned : scan decoder start.image
        ((state.under settings).settings.maxInstructions - (state.under settings).instructions)
        (state.under settings) target start.offset =
      (scan decoder start.image (state.settings.maxInstructions - state.instructions) state target
        start.offset).under settings := by
    refine scan_under placed regular agrees (by omega) ?_
    change _ < settings.maxInstructions - state.instructions
    omega
  simp only [explore, program, scanned, closeBlock_under, splitAt_under]
  split
  · rfl
  · split
    · split <;> rfl
    · rfl

theorem process_under (task : Task) :
    process decoder (state.under settings) task = (process decoder state task).under settings := by
  have program : (state.under settings).program = state.program := rfl
  refine process_under_of_follow fun target _ => ?_
  simp only [follow, program, explore_under placed regular agrees ample otherAmple]
  split
  · rfl
  · split <;> rfl

end Limits

/-- Budgets for everything that may be left to do make no difference, and neither do limits that are
beyond the unknown bytes. -/
theorem drain_under {decoder : Decoder} {program : Program} {own settings : Settings}
    {state : Analysis} {budget other : Nat} (regular : program.Regular) (placed : decoder.Placed)
    (reached : Reached decoder program own state) (agrees : state.settings.Agrees settings)
    (ample : program.unknownBytes < state.settings.maxInstructions)
    (otherAmple : program.unknownBytes < settings.maxInstructions)
    (enough : state.load ≤ budget) (otherEnough : state.load ≤ other) :
    drain decoder other (state.under settings) = (drain decoder budget state).under settings := by
  induction budget generalizing other state with
  | zero =>
      have empty := empty_of_load (Nat.eq_zero_of_le_zero enough)
      have otherEmpty : (state.under settings).pending.toList = [] := empty
      rw [drain_of_empty empty, drain_of_empty otherEmpty]
      rfl
  | succ budget ih =>
      cases next : state.pending.next? with
      | none =>
          have empty := Queue.next?_eq_none_iff.mp next
          have otherEmpty : (state.under settings).pending.toList = [] := empty
          rw [drain_of_empty empty, drain_of_empty otherEmpty]
          rfl
      | some taken =>
          obtain ⟨task, rest⟩ := taken
          have counted := reached.instructions_le regular placed
          have room : state.instructions < state.settings.maxInstructions := by omega
          have otherRoom : (state.under settings).instructions <
              (state.under settings).settings.maxInstructions := by
            change state.instructions < settings.maxInstructions
            omega
          obtain ⟨faultless, later, kept, lighter⟩ :=
            process_reached regular placed reached next room
          have good : state.program.Regular := (reached.sound regular placed).regular regular
          have processed : process decoder { state.under settings with pending := rest } task =
              (process decoder { state with pending := rest } task).under settings :=
            @process_under decoder { state with pending := rest } settings placed good agrees
              (by dsimp only; omega) (by dsimp only; omega) task
          obtain ⟨other, rfl⟩ := Nat.exists_eq_add_one_of_ne_zero (by omega : other ≠ 0)
          have otherFaultless :
              (process decoder { state.under settings with pending := rest } task).fault = none := by
            rw [processed]
            exact faultless
          have otherNext : (state.under settings).pending.next? = some (task, rest) := next
          rw [drain_of_next next room faultless, drain_of_next otherNext otherRoom otherFaultless,
            processed]
          exact ih later (by rwa [kept]) (by rwa [kept]) (by omega) (by omega)

theorem load_enter (program : Program) (settings : Settings) (entries : List EntryPoint) :
    ((fresh program settings).enter entries).load = entries.length + 2 * program.unknownBytes := by
  rw [enter_eq, load, length_enqueueAll, entryTasks, List.length_map]
  rfl

/-- A search with room for its entry points and for two tasks for each unknown byte comes to its end
by itself. Other limits of that size lead to the same results. -/
theorem findBlocks_drains {program : Program} {decoder : Decoder} (built : program.Built)
    (placed : decoder.Placed) (settings : Settings) (entries : List EntryPoint)
    (enough : entries.length + 2 * program.unknownBytes ≤ settings.maxTasks)
    (ample : program.unknownBytes < settings.maxInstructions) :
    let outcome := findBlocks decoder (.fresh program settings) entries
    outcome.fault = none ∧ outcome.state.pending.toList = [] ∧
      outcome.state.instructions < settings.maxInstructions ∧
      ∀ maxTasks maxInstructions, entries.length + 2 * program.unknownBytes ≤ maxTasks →
        program.unknownBytes < maxInstructions →
        let others : Settings := { settings with maxTasks, maxInstructions }
        findBlocks decoder (.fresh program others) entries =
          .done { outcome.state with settings := others } := by
  intro outcome
  have start : Reached decoder program settings (.fresh program settings) := .refl
  have entered : Reached decoder program settings ((fresh program settings).enter entries) :=
    start.tail (enter_step _ entries)
  have load := load_enter program settings entries
  have kept : ((fresh program settings).enter entries).settings = settings := by rw [enter_eq]; rfl
  have found : Reaches decoder program settings outcome :=
    start.findBlocks built.regular placed entries
  have counted := found.reached.instructions_le built.regular placed
  refine ⟨found.faultless, ?_, by omega, fun maxTasks maxInstructions otherEnough otherAmple => ?_⟩
  · exact drain_empties built.regular placed entered (by rwa [kept]) (by rwa [load])
  · intro others
    have same : (fresh program others).enter entries =
        ((fresh program settings).enter entries).under others := by
      rw [enter_eq, enter_eq]
      rfl
    have agrees : ((fresh program settings).enter entries).settings.Agrees others := by
      rw [kept]
      exact ⟨rfl, rfl⟩
    have drained : findBlocks decoder (.fresh program others) entries = outcome.under others := by
      rw [findBlocks, same]
      exact drain_under built.regular placed entered agrees (by rwa [kept]) otherAmple (by rwa [load])
        (by rwa [load])
    rw [drained, Outcome.under, found.faultless]
    rfl

/-- Limits that are just met, and much larger ones, in a program of thirteen unknown bytes. The search finds four
blocks, one of them through a table. -/
theorem sample_findBlocks_drains :
    let tight : Settings := { maxTasks := 27, maxInstructions := 14 }
    let found := (findBlocks sampleDecoder (.fresh sample tight) [sampleEntry]).state
    sample.Built ∧ sampleDecoder.Placed ∧ sample.unknownBytes = 13 ∧ found.pending.toList = [] ∧
      found.blocks.blocks = [⟨0, 0, 2, .conditional⟩, ⟨0, 2, 4, .fallThrough⟩, ⟨0, 4, 8, .terminated⟩,
        ⟨0, 12, 13, .terminated⟩] ∧
      found.references.toList.length = 5 ∧ found.instructions = 4 ∧
      findBlocks sampleDecoder (.fresh sample {}) [sampleEntry] = .done { found with settings := {} } := by
  intro tight found
  obtain ⟨-, drained, -, others⟩ := findBlocks_drains sample_built sampleDecoder_placed tight
    [sampleEntry] (by decide +kernel) (by decide +kernel)
  exact ⟨sample_built, sampleDecoder_placed, by decide +kernel, drained, by decide +kernel,
    by decide +kernel, by decide +kernel, others 1000000 1000000 (by decide +kernel) (by decide +kernel)⟩

end RealMode.Analysis
