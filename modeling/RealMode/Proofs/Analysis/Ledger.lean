import RealMode.Proofs.Analysis.Tasks

/-! What a search has read, and what it has done with that.

An instruction is read once, when it is marked, and raises its tasks then; a slot raises the task to
go where its word leads. At every moment the tasks that are done, in hand or on the agenda are those
of the entry points, of the instructions that have been read and of the slots. References are left by
the tasks that are done. -/

set_option autoImplicit false

namespace RealMode.Analysis

/-- An instruction that has been marked, with the address at which the search came to it. -/
structure Reading where
  place : Place
  here : Address
  instruction : Instruction

/-- The decoder gives the instruction of a reading, perhaps for other marks of the image. -/
structure Reading.Holds (reading : Reading) (decoder : Decoder) (origin : Program) : Prop where
  located : origin.resolve reading.here = some reading.place
  inside : origin.contains reading.place = true
  decoded : ∃ image other, origin.image? reading.place.image = some image ∧
    other.blank = image.blank ∧
    decoder other reading.place.offset reading.here.offset = .ok reading.instruction

/-- Whether a task waits for no slot. -/
def isReady (task : Task) : Bool := !awaitsSlot task.reference

/-- Whether a task is recorded once it has been followed. -/
def leavesReference (task : Task) : Bool := task.isRecorded && !awaitsSlot task.reference

/-- The reference of a jump to the word in a slot. -/
def slotReference (program : Program) (slot : ConsumedSlot) : Reference :=
  ⟨some slot.jump, (program.word? slot.place).map (⟨slot.jump.referent, ·⟩), .indexedJump,
    some slot.location⟩

def slotTasks (program : Program) (slot : ConsumedSlot) : List Task :=
  .recorded (slotReference program slot) ::
    ((slot.location.add? (UInt16.ofNat JumpTable.slotSize)).map
      (Task.recorded ∘ .indexed slot.jump)).toList

/-- The tasks of entry points, of instructions that have been read and of slots. -/
def raised (origin : Program) (settings : Settings) (entries : List EntryPoint)
    (readings : List Reading) (slots : List ConsumedSlot) : List Task :=
  entryTasks entries ++
    readings.flatMap (fun reading =>
      (fresh origin settings).departures reading.instruction reading.here) ++
    slots.flatMap (slotTasks origin)

/-- The reference that a slot leaves names the word in it. -/
theorem slotReference_of_reads {origin program : Program} {reference : Reference} {source : Address}
    {slot : JumpTable.Slot} (remarked : origin.Remarked program)
    (reads : JumpTable.Reads program reference source slot) :
    (origin.word? slot.place).isSome = true ∧
      slotReference origin ⟨slot.place, slot.location, source⟩ = slot.reference := by
  obtain ⟨value, place, followed, read, -⟩ := reads.target
  have word : origin.word? slot.place = some value :=
    (remarked.word? slot.place).symm.trans (JumpTable.word?_of_value? read)
  rw [followed, reads.waits, slotReference, word]
  exact ⟨rfl, rfl⟩

/-- Whether an instruction is a jump through the table behind it, and tables are followed. -/
def goesThroughTable (program : Program) (settings : Settings) (instruction : Instruction)
    (here : Address) : Bool :=
  settings.jumpTables && (JumpTable.start? program instruction here).isSome

theorem flow_of_goesThroughTable {program : Program} {settings : Settings}
    {instruction : Instruction} {here : Address}
    (table : goesThroughTable program settings instruction here = true) :
    instruction.flow = .jump false := by
  by_contra other
  have nothing : JumpTable.start? program instruction here = none := by
    simp [JumpTable.start?, other]
  simp [goesThroughTable, nothing] at table

theorem isSome_tableOf? {program : Program} {settings : Settings} {instruction : Instruction}
    {here : Address} {far : Bool} (flow : instruction.flow = .jump far) :
    ((fresh program settings).tableOf? instruction here far).isSome =
      goesThroughTable program settings instruction here := by
  cases far with
  | false => cases tables : settings.jumpTables <;> simp [tableOf?, goesThroughTable, fresh, tables]
  | true => simp [tableOf?, goesThroughTable, JumpTable.start?, flow]

/-- The jump at an address has been read and goes through a table. -/
def Tabled (origin : Program) (settings : Settings) (readings : List Reading) (source : Address) :
    Prop :=
  ∃ reading ∈ readings, reading.here = source ∧
    goesThroughTable origin settings reading.instruction reading.here = true

/-- A task that has been followed beyond its start does not wait for a slot. -/
def Activity.Ready : Activity → Prop
  | .idle | .following _ => True
  | .scanning task _ _ _ | .leaving task _ _ _ | .settled task => awaitsSlot task.reference = false

theorem ready_activityBehind {program : Program} {task : Task} {start : Place}
    {instruction : Instruction} {here : Address} (ready : awaitsSlot task.reference = false) :
    (activityBehind program task start instruction here).Ready := by
  unfold activityBehind
  split
  · exact ready
  · split <;> exact ready

theorem tableOf?_of_remarked {origin : Program} {settings : Settings} {state : Analysis}
    (remarked : origin.Remarked state.program) (same : state.settings = settings)
    (instruction : Instruction) (here : Address) (far : Bool) :
    state.tableOf? instruction here far =
      (fresh origin settings).tableOf? instruction here far := by
  subst same
  simp only [tableOf?, remarked.tableStart?]
  rfl

/-- The tasks of an instruction depend on the program only through what no mark changes. -/
theorem departures_of_remarked {origin : Program} {settings : Settings} {state : Analysis}
    (remarked : origin.Remarked state.program) (same : state.settings = settings)
    (instruction : Instruction) (here : Address) :
    state.departures instruction here = (fresh origin settings).departures instruction here := by
  have table := tableOf?_of_remarked remarked same instruction here
  subst same
  have branch (kind : Reference.Kind) : branchTask state.program instruction here kind =
      branchTask (fresh origin state.settings).program instruction here kind := by
    simp only [branchTask, remarked.branchTarget?]
    rfl
  simp only [departures, table, branch]
  rfl

/-- Of the tasks of an instruction only that through a table waits for a slot. -/
theorem goesThroughTable_of_awaits {program : Program} {settings : Settings}
    {instruction : Instruction} {here : Address} {task : Task}
    (member : task ∈ (fresh program settings).departures instruction here)
    (awaits : awaitsSlot task.reference = true) :
    goesThroughTable program settings instruction here = true := by
  have slot : task.reference.slot.isSome = true := (Bool.and_eq_true_iff.mp awaits).2
  unfold departures at member
  cases flow : instruction.flow with
  | next | interrupt | ret | halt => simp [flow] at member
  | call far =>
      simp only [flow, List.mem_singleton] at member
      subst member
      cases slot
  | jump far =>
      simp only [flow] at member
      split at member
      · rename_i table found
        rw [← isSome_tableOf? flow, found]
        rfl
      · rw [List.mem_singleton.mp member] at slot
        cases slot
  | conditionalJump =>
      simp only [flow, List.mem_cons, Option.mem_toList, Option.map_eq_some_iff] at member
      rcases member with rfl | ⟨next, -, rfl⟩ <;> cases slot

/-- The readings of a search, its tasks and its references agree with each other. -/
structure Ledger (decoder : Decoder) (origin : Program) (settings : Settings)
    (entries : List EntryPoint) (readings : List Reading) (finished : List Task) (moment : Moment) :
    Prop where
  configured : moment.state.settings = settings
  distinct : (readings.map Reading.place).Nodup
  marked : ∀ place, (∃ reading ∈ readings, reading.place = place) ↔
    (origin.marksAt place).startsCode = false ∧
      (moment.state.program.marksAt place).startsCode = true
  read : ∀ reading ∈ readings, reading.Holds decoder origin
  slots : ∀ slot ∈ moment.state.slots,
    (origin.word? slot.place).isSome = true ∧ Tabled origin settings readings slot.jump
  ready : moment.activity.Ready
  recorded : moment.state.references.toList =
    (finished.filter leavesReference).map Task.reference
  account : (finished ++ moment.activity.task?.toList ++ moment.state.pending.toList).Perm
    (raised origin settings entries readings moment.state.slots)

/-- What a step adds to the readings: the instruction at which a scan stands, unless the scan stops
before it. -/
inductive Peruses (decoder : Decoder) :
    Moment → Moment → List Reading → List Reading → Prop where
  | none {before after : Moment} {readings : List Reading}
      (stops : ∀ task start here offset, before.activity = .scanning task start here offset →
        after.activity = .leaving task start offset .incomplete) :
      Peruses decoder before after readings readings
  | one {state after : Analysis} {task : Task} {start : Place} {here : Address} {offset : Nat}
      {image : Image} {instruction : Instruction} {readings : List Reading}
      (found : state.program.image? start.image = some image)
      (decoded : decoder image offset here.offset = .ok instruction)
      (unattributed : image.isUnattributed offset instruction.stop = true)
      (marked : after.program = state.program.paint .code ⟨start.image, offset⟩ instruction.length) :
      Peruses decoder ⟨state, .scanning task start here offset⟩
        ⟨after, activityBehind after.program task start instruction here⟩ readings
        (⟨⟨start.image, offset⟩, here, instruction⟩ :: readings)

/-- The task in hand, if there is one, has neither been followed nor does it wait for a slot. -/
def Activity.Unfinished : Activity → Prop
  | .idle | .scanning .. | .leaving .. => True
  | .following task => awaitsSlot task.reference = false
  | .settled _ => False

/-- What a step adds to the tasks that are done: a task that has been followed, or one that has waited
for a slot. -/
inductive Finishes (before : Moment) : List Task → List Task → Prop where
  | none {finished : List Task} (unfinished : before.activity.Unfinished) :
      Finishes before finished finished
  | settled {finished : List Task} {task : Task} (settled : before.activity = .settled task) :
      Finishes before finished (finished ++ [task])
  | waiting {finished : List Task} {task : Task} (follows : before.activity = .following task)
      (awaits : awaitsSlot task.reference = true) :
      Finishes before finished (finished ++ [task])

namespace Ledger

variable {decoder : Decoder} {origin : Program} {settings : Settings} {entries : List EntryPoint}
  {readings : List Reading} {finished : List Task} {before after : Moment}

theorem enter (decoder : Decoder) (origin : Program) (settings : Settings)
    (entries : List EntryPoint) :
    Ledger decoder origin settings entries [] [] ⟨(fresh origin settings).enter entries, .idle⟩ := by
  rw [enter_eq]
  refine ⟨rfl, List.nodup_nil, fun place => ?_, nofun, nofun, trivial, rfl, ?_⟩
  · refine iff_of_false (by simp) ?_
    rintro ⟨before, after⟩
    exact absurd after (Bool.eq_false_iff.mp before)
  · have entered := (Queue.empty : Agenda).toList_enqueueAll_perm (entryTasks entries)
    simpa [raised, Activity.task?, fresh] using entered

theorem mem_raised (ledger : Ledger decoder origin settings entries readings finished before)
    {task : Task} (known : Knows before task) :
    task ∈ raised origin settings entries readings before.state.slots := by
  refine ledger.account.mem_iff.mp ?_
  rcases known with pending | taken
  · exact List.mem_append_right _ pending
  · exact List.mem_append_left _ (List.mem_append_right _ (by simp [taken]))

/-- A task that waits for a slot was raised by a jump through its table. -/
theorem tabled_of_awaits (ledger : Ledger decoder origin settings entries readings finished before)
    {task : Task} (known : Knows before task) (awaits : awaitsSlot task.reference = true) :
    ∃ source, task.reference.source = some source ∧ Tabled origin settings readings source := by
  have member := ledger.mem_raised known
  simp only [raised, List.mem_append, List.mem_flatMap] at member
  rcases member with (entry | ⟨reading, read, departure⟩) | ⟨slot, consumed, followed⟩
  · obtain ⟨entry, -, rfl⟩ := List.mem_map.mp entry
    cases awaits
  · exact ⟨reading.here, (mem_departures departure).1, reading, read, rfl,
      goesThroughTable_of_awaits departure awaits⟩
  · refine ⟨slot.jump, ?_, (ledger.slots slot consumed).2⟩
    rcases List.mem_cons.mp followed with rfl | next
    · rfl
    · rw [Option.mem_toList, Option.map_eq_some_iff] at next
      obtain ⟨location, -, rfl⟩ := next
      rfl

/-- A step that marks nothing and settles no task leaves the readings and what is done as they are. -/
theorem pass (ledger : Ledger decoder origin settings entries readings finished before)
    (configured : after.state.settings = before.state.settings)
    (program : after.state.program = before.state.program)
    (slots : after.state.slots = before.state.slots)
    (references : after.state.references = before.state.references)
    (ready : after.activity.Ready)
    (tasks : after.activity.task?.toList ++ after.state.pending.toList =
      before.activity.task?.toList ++ before.state.pending.toList) :
    Ledger decoder origin settings entries readings finished after where
  configured := configured.trans ledger.configured
  distinct := ledger.distinct
  marked := program ▸ ledger.marked
  read := ledger.read
  slots := slots ▸ ledger.slots
  ready := ready
  recorded := references ▸ ledger.recorded
  account := by
    rw [List.append_assoc, tasks, slots, ← List.append_assoc]
    exact ledger.account

/-- A task in hand is done. -/
theorem finish {state : Analysis} {task : Task} {activity : Activity} {references : ReferenceGraph}
    (ledger : Ledger decoder origin settings entries readings finished ⟨state, activity⟩)
    (taken : activity.task? = some task)
    (recorded : references.toList = state.references.toList ++
      ([task].filter leavesReference).map Task.reference) :
    Ledger decoder origin settings entries readings (finished ++ [task])
      ⟨{ state with references }, .idle⟩ where
  configured := ledger.configured
  distinct := ledger.distinct
  marked := ledger.marked
  read := ledger.read
  slots := ledger.slots
  ready := trivial
  recorded := by
    rw [recorded, ledger.recorded, List.filter_append, List.map_append]
  account := by
    have account := ledger.account
    rw [taken] at account
    simpa [Activity.task?] using account

/-- A slot is consumed by the task that has waited for it. -/
theorem consume {state : Analysis} {task : Task} {source : Address} {slot : JumpTable.Slot}
    (ledger : Ledger decoder origin settings entries readings finished ⟨state, .following task⟩)
    (remarked : origin.Remarked state.program)
    (reads : JumpTable.Reads state.program task.reference source slot) :
    Ledger decoder origin settings entries readings (finished ++ [task])
      ⟨state.consumed source slot, .idle⟩ := by
  have awaits : awaitsSlot task.reference = true := by rw [reads.waits]; rfl
  obtain ⟨word, reference⟩ := slotReference_of_reads remarked reads
  have tasks : slotTasks origin ⟨slot.place, slot.location, source⟩ =
      Task.recorded slot.reference :: (slot.next.map Task.recorded).toList := by
    rw [slotTasks, reference, reads.next, Option.map_map]
  refine ⟨ledger.configured, ledger.distinct, fun byte => ?_, ledger.read, fun other member => ?_,
    trivial, ?_, ?_⟩
  · rw [ledger.marked, consumed, reads.free.startsCode_paint]
    simp
  · rcases List.mem_append.mp member with earlier | new
    · exact ledger.slots other earlier
    · obtain ⟨jump, jumpSource, tabled⟩ := ledger.tabled_of_awaits (.inr rfl) awaits
      rw [reads.waits] at jumpSource
      obtain rfl := Option.some.inj jumpSource
      rw [List.mem_singleton.mp new]
      exact ⟨word, tabled⟩
  · have kept := ledger.recorded
    simp only [consumed, List.filter_append, List.map_append]
    simpa [leavesReference, awaits] using kept
  · have account := ledger.account
    have enqueued := state.pending.toList_enqueueAll_perm
      (slotTasks origin ⟨slot.place, slot.location, source⟩)
    rw [List.perm_iff_count] at account enqueued ⊢
    intro item
    have before := account item
    have after := enqueued item
    rw [tasks] at after
    simp only [raised, consumed, Activity.task?, Option.toList_some, Option.toList_none,
      List.count_append, List.flatMap_append, List.flatMap_cons, List.flatMap_nil, tasks,
      List.append_nil] at before after ⊢
    omega

/-- An instruction is read where a scan marks it. -/
theorem advance {state : Analysis} {task : Task} {start : Place} {here : Address} {offset : Nat}
    {image : Image} {instruction : Instruction}
    (ledger : Ledger decoder origin settings entries readings finished
      ⟨state, .scanning task start here offset⟩)
    (sound : Sound origin ⟨state, .scanning task start here offset⟩)
    (regular : origin.Regular) (placed : decoder.Placed)
    (found : state.program.image? start.image = some image)
    (decoded : decoder image offset here.offset = .ok instruction)
    (unattributed : image.isUnattributed offset instruction.stop = true) :
    Ledger decoder origin settings entries
      (⟨⟨start.image, offset⟩, here, instruction⟩ :: readings) finished
      ⟨(state.markInstruction start.image offset instruction.length).departed instruction here,
        activityBehind (state.program.paint .code ⟨start.image, offset⟩ instruction.length) task
          start instruction here⟩ := by
  obtain ⟨free, -⟩ := free_of_decoded placed found decoded unattributed
  have remarked := sound.owned.remarked
  have painted := remarked.trans (free.remarked (by decide : Content.code ≠ .padding))
  have unknown : (state.program.marksAt ⟨start.image, offset⟩).isUnknown = true :=
    free.unknown free.inRun_self
  have originUnknown := remarked.unknown_of_unknown unknown
  refine ⟨ledger.configured, ?_, fun byte => ?_, ?_, ?_, ready_activityBehind ledger.ready,
    ledger.recorded, ?_⟩
  -- A byte that is still unknown has not been read before.
  · refine List.nodup_cons.mpr ⟨fun listed => ?_, ledger.distinct⟩
    obtain ⟨reading, member, same⟩ := List.mem_map.mp listed
    have starts := ((ledger.marked _).mp ⟨reading, member, same⟩).2
    exact absurd starts (Bool.eq_false_iff.mp (Marks.startsCode_of_unknown unknown))
  · have program : ((state.markInstruction start.image offset instruction.length).departed
        instruction here).program =
        state.program.paint .code ⟨start.image, offset⟩ instruction.length := rfl
    simp only [List.mem_cons, exists_eq_or_imp, ledger.marked, program, free.startsCode_paint]
    by_cases same : byte = ⟨start.image, offset⟩
    · subst same
      simp [Marks.startsCode_of_unknown originUnknown]
    · simp [same, Ne.symm same]
  · rintro reading member
    rcases List.mem_cons.mp member with rfl | earlier
    · obtain ⟨image', found', blank⟩ := remarked.image_eq found
      exact ⟨(remarked.resolve here).symm.trans sound.located.2.1,
        (remarked.contains _).symm.trans (free.contains (sound.regular regular)),
        image', image, found', blank, decoded⟩
    · exact ledger.read reading earlier
  · intro slot member
    obtain ⟨word, reading, read, tabled⟩ := ledger.slots slot member
    exact ⟨word, reading, List.mem_cons_of_mem _ read, tabled⟩
  · let marked := state.markInstruction start.image offset instruction.length
    have configured : marked.settings = settings := ledger.configured
    have seen : origin.Remarked marked.program := painted
    have enqueued := state.pending.toList_enqueueAll_perm (marked.departures instruction here)
    have account := ledger.account
    rw [List.perm_iff_count] at account enqueued ⊢
    intro item
    have before := account item
    have after : (marked.departed instruction here).pending.toList.count item = _ := enqueued item
    have inHand : (Activity.scanning task start here offset).task? = some task := rfl
    simp only [raised, task?_activityBehind, inHand, departures_of_remarked seen configured,
      List.count_append, List.flatMap_cons] at before after ⊢
    rw [after]
    change _ = _ + _ + (state.slots.flatMap (slotTasks origin)).count item
    omega

theorem step (ledger : Ledger decoder origin settings entries readings finished before)
    (sound : Sound origin before) (regular : origin.Regular) (placed : decoder.Placed)
    (works : Works decoder before after) :
    ∃ laterReadings laterFinished,
      Ledger decoder origin settings entries laterReadings laterFinished after ∧
        Peruses decoder before after readings laterReadings ∧
        Finishes before finished laterFinished := by
  obtain ⟨step, busy⟩ := works
  cases step with
  | enter _ | derive _ _ _ _ => exact absurd ⟨rfl, rfl⟩ busy
  | take next _ =>
      refine ⟨readings, finished, ledger.pass rfl rfl rfl rfl trivial ?_,
        .none (by rintro _ _ _ _ ⟨⟩), .none trivial⟩
      rw [Queue.toList_of_next? next]
      rfl
  | dismiss awaits =>
      refine ⟨readings, _, ledger.finish rfl ?_, .none (by rintro _ _ _ _ ⟨⟩), .waiting rfl awaits⟩
      simp [leavesReference, awaits]
  | forget unrecorded =>
      refine ⟨readings, _, ledger.finish rfl ?_, .none (by rintro _ _ _ _ ⟨⟩), .settled rfl⟩
      simp [leavesReference, unrecorded]
  | record recorded =>
      have ready : awaitsSlot _ = false := ledger.ready
      refine ⟨readings, _, ledger.finish rfl ?_, .none (by rintro _ _ _ _ ⟨⟩), .settled rfl⟩
      rw [Graph.toList_add]
      simp [leavesReference, recorded, ready]
  | consume reads =>
      exact ⟨readings, _, ledger.consume sound.owned.remarked reads,
        .none (by rintro _ _ _ _ ⟨⟩),
        .waiting rfl (by rw [reads.waits]; rfl)⟩
  | advance _ found decoded unattributed =>
      exact ⟨_, finished, ledger.advance sound regular placed found decoded unattributed,
        .one found decoded unattributed rfl, .none trivial⟩
  | skip _ ready =>
      exact ⟨readings, finished, ledger.pass rfl rfl rfl rfl ready rfl,
        .none (by rintro _ _ _ _ ⟨⟩), .none ready⟩
  | note points _ _ | cut points _ _ _ | begin points _ _ _ =>
      exact ⟨readings, finished, ledger.pass rfl rfl rfl rfl (ready_of_target points) rfl,
        .none (by rintro _ _ _ _ ⟨⟩),
        .none (ready_of_target points)⟩
  | exhaust _ | miss _ | refuse _ _ _ =>
      refine ⟨readings, finished, ledger.pass rfl rfl rfl rfl ledger.ready rfl, .none ?_,
        .none trivial⟩
      rintro _ _ _ _ ⟨⟩
      rfl
  | close _ =>
      exact ⟨readings, finished, ledger.pass rfl rfl rfl rfl ledger.ready rfl,
        .none (by rintro _ _ _ _ ⟨⟩), .none trivial⟩

theorem proceeds {program : Program} {moment : Moment} (regular : program.Regular)
    (placed : decoder.Placed)
    (proceeds : Proceeds decoder ⟨(fresh program settings).enter entries, .idle⟩ moment) :
    ∃ readings finished, Ledger decoder program settings entries readings finished moment := by
  induction proceeds with
  | refl => exact ⟨[], [], .enter decoder program settings entries⟩
  | tail earlier works ih =>
      obtain ⟨readings, finished, ledger⟩ := ih
      have entered : Steps decoder ⟨fresh program settings, .idle⟩ _ :=
        .head (enter_step _ entries) (Proceeds.steps earlier)
      obtain ⟨_, _, later, -⟩ :=
        ledger.step (.steps regular placed entered) regular placed works
      exact ⟨_, _, later⟩

end Ledger

/-- The references of an instruction, unless it is a jump through a table. -/
def instructionReferences (program : Program) (settings : Settings) (instruction : Instruction)
    (here : Address) : List Reference :=
  let branch (kind : Reference.Kind) : Reference :=
    ⟨some here, program.branchTarget? instruction here, kind, none⟩
  match instruction.flow with
  | .ret | .halt | .next | .interrupt => []
  | .call far => [branch (if far then .farCall else .nearCall)]
  | .jump far =>
      if goesThroughTable program settings instruction here then []
      else [branch (if far then .farJump else .nearJump)]
  | .conditionalJump =>
      branch .conditionalJump ::
        if settings.recordFallThrough then
          (following? instruction here).toList.map fun next =>
            ⟨some here, some next, .conditionalJump, none⟩
        else []

theorem leavesReference_branchTask (program : Program) (instruction : Instruction) (here : Address)
    (kind : Reference.Kind) : leavesReference (branchTask program instruction here kind) = true := by
  simp [leavesReference, awaitsSlot, branchTask, Task.recorded]

theorem departures_references (program : Program) (settings : Settings) (instruction : Instruction)
    (here : Address) :
    (((fresh program settings).departures instruction here).filter leavesReference).map
      Task.reference = instructionReferences program settings instruction here := by
  unfold departures instructionReferences
  cases flow : instruction.flow with
  | next | interrupt | ret | halt => rfl
  | call far =>
      simp only [List.filter_cons, leavesReference_branchTask]
      rfl
  | jump far =>
      rw [← isSome_tableOf? flow]
      dsimp only
      cases table : (fresh program settings).tableOf? instruction here far with
      | some slot => rfl
      | none =>
          simp only [List.filter_cons, leavesReference_branchTask]
          rfl
  | conditionalJump =>
      simp only [List.filter_cons, leavesReference_branchTask]
      cases following? instruction here <;> cases recorded : settings.recordFallThrough <;>
        simp [leavesReference, awaitsSlot, branchTask, Task.recorded, fresh, recorded]

theorem slotTasks_ready {program : Program} {slot : ConsumedSlot}
    (read : (program.word? slot.place).isSome = true) :
    (slotTasks program slot).filter isReady = [.recorded (slotReference program slot)] := by
  obtain ⟨value, word⟩ := Option.isSome_iff_exists.mp read
  unfold slotTasks
  cases slot.location.add? (UInt16.ofNat JumpTable.slotSize) <;>
    simp [isReady, awaitsSlot, slotReference, Task.recorded, Reference.indexed, word]

theorem filter_leavesReference (tasks : List Task) :
    tasks.filter leavesReference = (tasks.filter isReady).filter Task.isRecorded := by
  rw [List.filter_filter]
  rfl

theorem slotTasks_references {program : Program} {slot : ConsumedSlot}
    (read : (program.word? slot.place).isSome = true) :
    ((slotTasks program slot).filter leavesReference).map Task.reference =
      [slotReference program slot] := by
  rw [filter_leavesReference, slotTasks_ready read]
  rfl

/-- What has been recorded, and what will be for tasks that are known, are the references of the entry
points, of the instructions and of the slots. -/
theorem Ledger.references_perm {decoder : Decoder} {origin : Program} {settings : Settings}
    {entries : List EntryPoint} {readings : List Reading} {finished : List Task} {moment : Moment}
    (ledger : Ledger decoder origin settings entries readings finished moment) :
    (moment.state.references.toList ++ ((moment.activity.task?.toList ++
        moment.state.pending.toList).filter leavesReference).map Task.reference).Perm
      (entries.map (fun entry => .toEntry entry.address) ++
        readings.flatMap (fun reading =>
          instructionReferences origin settings reading.instruction reading.here) ++
        moment.state.slots.map (slotReference origin)) := by
  have account := (ledger.account.filter leavesReference).map Task.reference
  have entered : ((entryTasks entries).filter leavesReference).map Task.reference =
      entries.map fun entry => .toEntry entry.address := by
    have all : (entryTasks entries).filter leavesReference = entryTasks entries := by
      refine List.filter_eq_self.mpr fun task member => ?_
      obtain ⟨entry, -, rfl⟩ := List.mem_map.mp member
      rfl
    rw [all, entryTasks, List.map_map]
    rfl
  have consumed : (moment.state.slots.flatMap fun slot =>
      ((slotTasks origin slot).filter leavesReference).map Task.reference) =
      moment.state.slots.map (slotReference origin) := by
    rw [List.map_eq_flatMap]
    exact List.flatMap_congr fun slot member => slotTasks_references (ledger.slots slot member).1
  simp only [raised, List.append_assoc, List.filter_append, List.map_append, entered,
    List.filter_flatMap, List.map_flatMap, departures_references, consumed, ← ledger.recorded]
    at account ⊢
  exact account

end RealMode.Analysis
