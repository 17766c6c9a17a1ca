import RealMode.Proofs.Analysis.Limits
import RealMode.Proofs.Analysis.Tables

/-! What has been done when a table slot is read.

Indexed jumps are the last in the order of tasks, so a slot is read when nothing but slots is left to
follow. Where a slot leads is followed before the next slot of the table is read: both are put on the
agenda in this order, and indexed jumps leave it in the order of their arrival. -/

set_option autoImplicit false

namespace RealMode.Analysis

/-- Whether a task is that of an indexed jump. -/
def isIndexed (task : Task) : Bool := task.reference.kind = .indexedJump

/-- Among the tasks of indexed jumps, none that waits for a slot stands before one that goes where a
slot of the same jump leads. -/
def Orderly (tasks : List Task) : Prop :=
  (tasks.filter isIndexed).Pairwise fun earlier later =>
    awaitsSlot earlier.reference = true → followsSlot later = true →
      earlier.reference.source ≠ later.reference.source

namespace Orderly

variable {tasks others : List Task} {task : Task}

theorem of_sublist (orderly : Orderly tasks) (fewer : others.Sublist tasks) : Orderly others :=
  List.Pairwise.sublist (fewer.filter isIndexed) orderly

theorem append (orderly : Orderly tasks)
    (clear : followsSlot task = true → ∀ other ∈ tasks, awaitsSlot other.reference = true →
      other.reference.source ≠ task.reference.source) : Orderly (tasks ++ [task]) := by
  unfold Orderly
  rw [List.filter_append, List.pairwise_append]
  refine ⟨orderly, (List.pairwise_singleton _ task).filter isIndexed, ?_⟩
  intro other member last listed awaits follows
  obtain rfl : last = task := by simpa using (List.mem_filter.mp listed).1
  exact clear follows other (List.mem_filter.mp member).1 awaits

/-- A task that waits for a slot is the next one only if no slot of its jump is still to be followed. -/
theorem followed (orderly : Orderly (task :: tasks)) (awaits : awaitsSlot task.reference = true) :
    ∀ other ∈ task :: tasks, followsSlot other = true →
      other.reference.source ≠ task.reference.source := by
  have indexed : isIndexed task = true := by
    simp only [awaitsSlot, Bool.and_eq_true] at awaits
    exact awaits.1.1
  intro other member follows same
  rcases List.mem_cons.mp member with rfl | later
  · simp [not_followsSlot awaits] at follows
  · unfold Orderly at orderly
    rw [List.filter_cons_of_pos indexed, List.pairwise_cons] at orderly
    have alsoIndexed : isIndexed other = true := decide_eq_true (kind_of_followsSlot follows)
    exact orderly.1 other (List.mem_filter.mpr ⟨later, alsoIndexed⟩) awaits follows same.symm

end Orderly

/-- Nothing but indexed jumps may come after an indexed jump. -/
theorem indexed_of_order {task other : Task} (indexed : task.reference.kind = .indexedJump)
    (order : Task.order task other ≠ .gt) : other.reference.kind = .indexedJump := by
  simp only [Task.order, Reference.comparePriority, indexed] at order
  cases kind : other.reference.kind with
  | indexedJump => rfl
  | _ =>
      rw [kind] at order
      exact absurd rfl order

/-- Indexed jumps are put at the end of the agenda. -/
theorem toList_enqueueAll_indexed {queue : Agenda} (ranked : Queue.Ranked Task.order queue.lines)
    {tasks : List Task} (indexed : ∀ task ∈ tasks, task.reference.kind = .indexedJump) :
    (tasks.foldl Queue.enqueue queue).toList = queue.toList ++ tasks := by
  induction tasks generalizing queue with
  | nil => simp
  | cons task rest ih =>
      rw [List.foldl_cons, ih (ranked.enter task) fun other member =>
        indexed other (List.mem_cons_of_mem task member)]
      rw [Queue.toList_enqueue_last ranked (order_indexed (indexed task List.mem_cons_self))]
      simp

/-- A jump that waits for a slot waits for no other one. -/
theorem InTurn.alone {origin : Program} {jump table : Address} {count : Nat} {state : Analysis}
    {task : Task} (inTurn : InTurn origin jump table count ⟨state, .following task⟩)
    (waits : waitsFor jump task = true) :
    ∀ other ∈ state.pending.toList, waitsFor jump other = false := by
  have tasks : (Moment.mk state (.following task)).tasks = task :: state.pending.toList := rfl
  have waiting := inTurn.waiting
  rw [tasks, List.filter_cons_of_pos waits] at waiting
  have rest : state.pending.toList.filter (waitsFor jump) = [] := by
    rcases waiting with nothing | ⟨location, -, one⟩
    · cases nothing
    · exact (List.cons.inj one).2
  simpa using List.filter_eq_nil_iff.mp rest

namespace Orderly

variable {decoder : Decoder} {origin : Program} {before after : Moment}

/-- Where a slot leads is put before the task that waits for the next slot. -/
theorem consume {state : Analysis} {task : Task} {source : Address} {slot : JumpTable.Slot}
    (orderly : Orderly (task :: state.pending.toList))
    (ranked : Queue.Ranked Task.order state.pending.lines)
    (alone : ∀ other ∈ state.pending.toList, waitsFor source other = false)
    (reads : JumpTable.Reads state.program task.reference source slot) :
    Orderly (state.consumed source slot).pending.toList := by
  obtain ⟨value, place, target, -⟩ := reads.target
  have starts : slot.reference.source = some source := by rw [target, reads.waits]; rfl
  have indexed : slot.reference.kind = .indexedJump := by rw [target, reads.waits]; rfl
  have nextIndexed : ∀ next ∈ (slot.next.map Task.recorded).toList,
      next.reference.kind = .indexedJump ∧ followsSlot next = false := by
    intro next member
    rw [reads.next, Option.map_map, Option.mem_toList, Option.map_eq_some_iff] at member
    obtain ⟨location, -, rfl⟩ := member
    exact ⟨rfl, rfl⟩
  have line : (state.consumed source slot).pending.toList = state.pending.toList ++
      Task.recorded slot.reference :: (slot.next.map Task.recorded).toList := by
    apply toList_enqueueAll_indexed ranked
    intro raised member
    rcases List.mem_cons.mp member with rfl | next
    · exact indexed
    · exact (nextIndexed raised next).1
  have first : Orderly (state.pending.toList ++ [Task.recorded slot.reference]) := by
    apply append (orderly.of_sublist (List.sublist_cons_self ..))
    intro _ other member awaits same
    have waits : waitsFor source other = true := by
      simp [waitsFor, awaits, same, Task.recorded, starts]
    simp [alone other member] at waits
  rw [line]
  cases ahead : (slot.next.map Task.recorded) with
  | none => exact first
  | some next =>
      rw [ahead] at nextIndexed
      have silent := (nextIndexed next (by simp)).2
      have both : Orderly ((state.pending.toList ++ [Task.recorded slot.reference]) ++ [next]) :=
        first.append fun follows => by simp [silent] at follows
      simpa using both

theorem step (orderly : Orderly before.tasks)
    (ranked : Queue.Ranked Task.order before.state.pending.lines)
    (inTurn : ∀ jump, ∃ table count, InTurn origin jump table count before)
    (works : Works decoder before after) : Orderly after.tasks := by
  obtain ⟨step, busy⟩ := works
  cases step with
  | enter _ | derive _ _ _ _ => exact absurd ⟨rfl, rfl⟩ busy
  | @take state task rest next _ =>
      have same : (Moment.mk state .idle).tasks =
          (Moment.mk { state with pending := rest } (.following task)).tasks :=
        Queue.toList_of_next? next
      rwa [← same]
  | dismiss _ _ | record _ | forget _ => exact orderly.of_sublist (List.sublist_cons_self ..)
  | skip _ _ | note _ _ _ | cut _ _ _ _ | begin _ _ _ _ | exhaust _ | miss _ | refuse _ _ _
  | close _ => exact orderly
  | @consume state task source slot reads =>
      obtain ⟨table, count, turn⟩ := inTurn source
      have waits : waitsFor source task = true := by
        simp [waitsFor, awaitsSlot, reads.waits, Reference.indexed]
      exact orderly.consume ranked (turn.alone waits) reads
  | @advance state task start here offset _ instruction _ _ _ _ =>
      let marked := state.markInstruction start.image offset instruction.length
      rw [Moment.tasks, task?_activityBehind]
      by_cases raises : ∃ departure ∈ marked.departures instruction here,
          departure.reference.kind = .indexedJump
      -- A jump through a table waits for its first slot, behind all that is pending.
      · obtain ⟨departure, member, indexed⟩ := raises
        obtain ⟨table, -, only⟩ := departures_of_indexed member indexed
        have line : (marked.departed instruction here).pending.toList =
            state.pending.toList ++ [.recorded (.indexed here table)] := by
          change ((marked.departures instruction here).foldl Queue.enqueue state.pending).toList = _
          rw [only]
          exact toList_enqueueAll_indexed ranked (by simp [Task.recorded, Reference.indexed])
        rw [line, ← List.append_assoc]
        apply orderly.append
        intro follows
        cases follows
      · have others : ∀ departure ∈ marked.departures instruction here,
            isIndexed departure = false := by
          intro departure member
          exact decide_eq_false fun indexed => raises ⟨departure, member, indexed⟩
        have same := Queue.filter_enqueueAll others state.pending
        unfold Orderly at orderly ⊢
        rw [Moment.tasks, List.filter_append] at orderly
        rw [List.filter_append]
        exact same.symm ▸ orderly

/-- Every table is read and followed in order, all along a search. -/
theorem proceeds {program : Program} {settings : Settings} {entries : List EntryPoint}
    {moment : Moment} (regular : program.Regular) (placed : decoder.Placed)
    (proceeds : Proceeds decoder ⟨(fresh program settings).enter entries, .idle⟩ moment) :
    Orderly moment.tasks := by
  induction proceeds with
  | refl =>
      have nothing : (Moment.mk ((fresh program settings).enter entries) .idle).tasks.filter
          isIndexed = [] := by
        refine List.filter_eq_nil_iff.mpr fun task member => ?_
        simp [isIndexed, kind_of_mem_enter member]
      rw [Orderly, nothing]
      exact .nil
  | tail earlier works ih =>
      obtain ⟨_, _, -, lined, -⟩ := Served.proceeds regular placed earlier
      exact ih.step lined.ranked (InTurn.proceeds regular placed earlier) works

end Orderly

/-- A search can be stopped after some tasks and taken up again. -/
theorem drain_add (decoder : Decoder) (first second : Nat) (state : Analysis) :
    drain decoder (first + second) state =
      (drain decoder first state).andThen (drain decoder second) := by
  induction first generalizing state with
  | zero => simp [drain]
  | succ first ih =>
      cases next : state.pending.next? with
      | none =>
          have empty := Queue.next?_eq_none_iff.mp next
          simp [drain_of_empty empty]
      | some taken =>
          obtain ⟨task, rest⟩ := taken
          by_cases spent : state.settings.maxInstructions ≤ state.instructions
          · simp [drain_of_spent spent]
          · rw [Nat.succ_add, drain, drain, next]
            dsimp only
            rw [if_neg spent, if_neg spent]
            cases failed : (process decoder { state with pending := rest } task).fault with
            | none => exact ih _
            | some fault => simp [Outcome.andThen, failed]

/-- The moment after some tasks of a search, with what is left for the search to do. -/
theorem findBlocks_after {program : Program} {decoder : Decoder} (regular : program.Regular)
    (placed : decoder.Placed) {settings : Settings} (entries : List EntryPoint) {count : Nat}
    (within : count ≤ settings.maxTasks) :
    let state := (drain decoder count ((fresh program settings).enter entries)).state
    findBlocks decoder (.fresh program settings) entries =
        drain decoder (settings.maxTasks - count) state ∧
      Proceeds decoder ⟨(fresh program settings).enter entries, .idle⟩ ⟨state, .idle⟩ := by
  intro state
  have start : Reached decoder program settings (.fresh program settings) := .refl
  have entered := start.tail (enter_step _ entries)
  obtain ⟨faultless, proceeds⟩ := (drain_leads count _).steps (fun _ _ => And.left)
    (Sound.steps regular placed entered) regular placed
  refine ⟨?_, proceeds⟩
  have split := drain_add decoder count (settings.maxTasks - count)
    ((fresh program settings).enter entries)
  rw [Nat.add_sub_cancel' within, Outcome.andThen, faultless] at split
  exact split

/-- The reference that a jump makes through the slot with a number in its table. -/
def tableReference? (program : Program) (jump table : Address) (number : Nat) : Option Reference :=
  (tableSlot? program jump table number).map (slotReference program)

section Waiting

variable {decoder : Decoder} {origin : Program} {settings : Settings} {entries : List EntryPoint}
  {readings : List Reading} {finished : List Task} {state : Analysis} {task : Task} {rest : Agenda}

/-- A task that waits for a slot of a jump waits for the next one in the table. -/
theorem InTurn.of_waiting {jump table : Address} {count : Nat} {moment : Moment}
    (inTurn : InTurn origin jump table count moment) (known : task ∈ moment.tasks)
    (waits : waitsFor jump task = true) :
    ∃ location, slotAddress? table count = some location ∧
      task.reference = .indexed jump location := by
  have listed := List.mem_filter.mpr ⟨known, waits⟩
  rcases inTurn.waiting with nothing | ⟨location, numbered, one⟩
  · simp [nothing] at listed
  · rw [one, List.mem_singleton] at listed
    exact ⟨location, numbered, by rw [listed]; rfl⟩

/-- A jump that waits for a slot has been read, and it goes through the table of the slot. -/
theorem InTurn.reading_of_waiting {jump table location : Address} {count : Nat}
    (inTurn : InTurn origin jump table count ⟨state, .idle⟩)
    (ledger : Ledger decoder origin settings entries readings finished ⟨state, .idle⟩)
    (served : Served finished ⟨state, .idle⟩) (known : Knows ⟨state, .idle⟩ task)
    (waits : task.reference = .indexed jump location)
    (numbered : slotAddress? table count = some location) :
    ∃ reading ∈ readings, reading.here = jump ∧
      JumpTable.start? origin reading.instruction jump = some table := by
  rcases Nat.eq_zero_or_pos count with rfl | consumed
  · obtain rfl := Option.some.inj ((slotAddress?_zero table).symm.trans numbered)
    exact inTurn.reading_of_raised ledger (ledger.mem_raised known) waits
  · exact inTurn.table_read ledger served consumed

/-- Where only indexed jumps are left to follow, all other references have been recorded. -/
theorem Ledger.references_of_indexed
    (ledger : Ledger decoder origin settings entries readings finished ⟨state, .idle⟩)
    (indexed : ∀ task ∈ state.pending.toList, task.reference.kind = .indexedJump) :
    (state.references.toList.filter fun reference => reference.kind ≠ .indexedJump).Perm
      (entries.map (fun entry => .toEntry entry.address) ++ readings.flatMap fun reading =>
        instructionReferences origin settings reading.instruction reading.here) := by
  have all := ledger.references_perm.filter fun reference => decide (reference.kind ≠ .indexedJump)
  have waiting : ((((Activity.idle.task?).toList ++ state.pending.toList).filter leavesReference).map
      Task.reference).filter (fun reference => decide (reference.kind ≠ .indexedJump)) = [] := by
    refine List.filter_eq_nil_iff.mpr fun reference member => ?_
    obtain ⟨task, kept, rfl⟩ := List.mem_map.mp member
    simp [indexed task (List.mem_filter.mp kept).1]
  have read : (readings.flatMap fun reading =>
      instructionReferences origin settings reading.instruction reading.here).filter
        (fun reference => decide (reference.kind ≠ .indexedJump)) =
      readings.flatMap fun reading =>
        instructionReferences origin settings reading.instruction reading.here := by
    refine List.filter_eq_self.mpr fun reference listed => ?_
    obtain ⟨reading, -, left⟩ := List.mem_flatMap.mp listed
    simp [(mem_instructionReferences left).2.1]
  rw [List.filter_append, waiting, List.append_nil, List.filter_append, List.filter_append, read] at all
  simpa [List.filter_map, Function.comp_def, Reference.toEntry, slotReference] using all

/-- An indexed jump that has been recorded leads where the word in a slot says. -/
theorem Lined.isSome_target (lined : Lined origin ⟨state, .idle⟩)
    (ledger : Ledger decoder origin settings entries readings finished ⟨state, .idle⟩)
    {reference : Reference} (recorded : reference ∈ state.references.toList)
    (indexed : reference.kind = .indexedJump) : reference.target.isSome = true := by
  have led : reference ∈ state.slots.map (slotReference origin) := by
    rw [← lined.listed]
    exact List.mem_append_left _ (List.mem_filter.mpr ⟨recorded, decide_eq_true indexed⟩)
  obtain ⟨slot, consumed, rfl⟩ := List.mem_map.mp led
  rw [slotReference, Option.isSome_map]
  exact (ledger.slots slot consumed).1

/-- When a slot is read next, its jump has been followed through the slots before it. -/
theorem InTurn.references_followed {jump table : Address} {count : Nat}
    (inTurn : InTurn origin jump table count ⟨state, .idle⟩) (lined : Lined origin ⟨state, .idle⟩)
    (orderly : Orderly (Moment.mk state .idle).tasks)
    (tasks : (Moment.mk state .idle).tasks = task :: rest.toList)
    (awaits : awaitsSlot task.reference = true) (starts : task.reference.source = some jump) :
    (state.references.toList.filter fun reference =>
        reference.kind = .indexedJump ∧ reference.source = some jump).map some =
      (List.range count).map (tableReference? origin jump table) := by
  have followed : ∀ other ∈ (Moment.mk state .idle).tasks, followsSlot other = true →
      other.reference.source ≠ some jump := by
    rw [tasks] at orderly ⊢
    rw [← starts]
    exact orderly.followed awaits
  rw [lined.references_of_followed followed]
  have slots := congrArg (List.map (Option.map (slotReference origin))) inTurn.slots
  rw [List.map_map, List.map_map] at slots
  rw [List.map_map]
  exact slots

end Waiting

/-- A table slot is read last. When a task that waits for one is taken, only indexed jumps are left on
the agenda, so all other references of the instructions found so far have been followed. If the slot
is the one with a number in the table behind a jump, then the jump has been followed and recorded
through the slots with smaller numbers, and through no other. -/
theorem findBlocks_reads_slots_last {program : Program} {decoder : Decoder} (built : program.Built)
    (placed : decoder.Placed) (pointed : decoder.Pointed) (settings : Settings)
    (entries : List EntryPoint) {count : Nat} (within : count ≤ settings.maxTasks) {task : Task}
    {rest : Agenda}
    (next : (drain decoder count ((fresh program settings).enter entries)).state.pending.next? =
      some (task, rest))
    (indexed : task.reference.kind = .indexedJump) (unresolved : task.reference.target = none) :
    let state := (drain decoder count ((fresh program settings).enter entries)).state
    findBlocks decoder (.fresh program settings) entries =
      drain decoder (settings.maxTasks - count) state ∧
    (∀ other ∈ rest.toList, other.reference.kind = .indexedJump) ∧
    ∃ readings : List Reading,
      (∀ place, (∃ reading ∈ readings, reading.place = place) ↔
        StartsAnew program state.program place) ∧
      (∀ reading ∈ readings, reading.Holds decoder program) ∧
      (state.references.toList.filter fun reference => reference.kind ≠ .indexedJump).Perm
        (entries.map (fun entry => .toEntry entry.address) ++ readings.flatMap fun reading =>
          instructionReferences program settings reading.instruction reading.here) ∧
      (∀ reference ∈ state.references.toList, reference.kind = .indexedJump →
        reference.target.isSome = true) ∧
      ∃ jump ∈ readings, ∃ table number location,
        JumpTable.start? program jump.instruction jump.here = some table ∧
        following? jump.instruction jump.here = some table ∧
        slotAddress? table number = some location ∧
        task.reference = .indexed jump.here location ∧
        (state.references.toList.filter fun reference =>
            reference.kind = .indexedJump ∧ reference.source = some jump.here).map some =
          (List.range number).map (tableReference? program jump.here table) := by
  intro state
  obtain ⟨remainder, proceeds⟩ := findBlocks_after built.regular placed entries within
  obtain ⟨readings, finished, ledger, lined, served⟩ :=
    Served.proceeds built.regular placed proceeds
  have orderly := Orderly.proceeds built.regular placed proceeds
  have tasks : state.pending.toList = task :: rest.toList := Queue.toList_of_next? next
  have listed : task ∈ state.pending.toList := by simp [tasks]
  have others : ∀ other ∈ rest.toList, other.reference.kind = .indexedJump := fun other stays =>
    indexed_of_order indexed (lined.ranked.order_of_next? next stays)
  have awaits : awaitsSlot task.reference = true := by
    simp [awaitsSlot, indexed, unresolved, (ledger.indexed_of_known (.inl listed) indexed).2]
  obtain ⟨source, starts, -⟩ := ledger.tabled_of_awaits (.inl listed) awaits
  obtain ⟨table, number, inTurn⟩ := InTurn.proceeds built.regular placed proceeds source
  have waits : waitsFor source task = true := by simp [waitsFor, awaits, starts]
  obtain ⟨location, numbered, waiting⟩ := inTurn.of_waiting listed waits
  obtain ⟨jump, read, rfl, start⟩ :=
    inTurn.reading_of_waiting ledger served (.inl listed) waiting numbered
  obtain ⟨_, _, -, -, decoded⟩ := (ledger.read jump read).decoded
  have behind := JumpTable.following?_of_start? start (pointed _ _ _ _ decoded)
    (placed _ _ _ _ decoded).2.2
  refine ⟨remainder, others, readings, ledger.marked, ledger.read, ?_, ?_, jump, read, table, number,
    location, start, behind, numbered, waiting, ?_⟩
  · apply ledger.references_of_indexed
    intro other member
    rcases List.mem_cons.mp (by rwa [← tasks]) with rfl | stays
    · exact indexed
    · exact others other stays
  · exact fun reference recorded => lined.isSome_target ledger recorded
  · exact inTurn.references_followed lined orderly tasks awaits starts

/-- The jump through the table waits for its second slot, and the first one has been followed. -/
theorem sample_findBlocks_reads_slots_last :
    let state := (drain sampleDecoder 5 ((fresh sample {}).enter [sampleEntry])).state
    ∃ task rest, sample.Built ∧ sampleDecoder.Placed ∧ sampleDecoder.Pointed ∧
      5 ≤ ({} : Settings).maxTasks ∧ state.pending.next? = some (task, rest) ∧
      task.reference = .indexed ⟨.segment 0, 4⟩ ⟨.segment 0, 10⟩ ∧
      (∀ other ∈ rest.toList, other.reference.kind = .indexedJump) ∧
      ∃ table, slotAddress? table 1 = some ⟨.segment 0, 10⟩ ∧
        (state.references.toList.filter fun reference =>
            reference.kind = .indexedJump ∧ reference.source = some ⟨.segment 0, 4⟩).map some =
          (List.range 1).map (tableReference? sample ⟨.segment 0, 4⟩ table) := by
  intro state
  have pointed := Script.decoder_pointed sampleRows
  have many : 5 ≤ ({} : Settings).maxTasks := by decide
  let task : Task := .recorded (.indexed ⟨.segment 0, 4⟩ ⟨.segment 0, 10⟩)
  have first : state.pending.toList.head? = some task := by decide +kernel
  obtain ⟨⟨taken, rest⟩, next⟩ : ∃ taken, state.pending.next? = some taken := by
    cases next : state.pending.next? with
    | none => simp [Queue.next?_eq_none_iff.mp next] at first
    | some taken => exact ⟨taken, rfl⟩
  rw [Queue.toList_of_next? next, List.head?_cons, Option.some.injEq] at first
  subst first
  obtain ⟨-, others, _, -, -, -, -, jump, -, table, number, location, -, -, numbered, waits, led⟩ :=
    findBlocks_reads_slots_last sample_built sampleDecoder_placed pointed {} [sampleEntry] many next
      rfl rfl
  obtain ⟨here, rfl⟩ : ⟨.segment 0, 4⟩ = jump.here ∧ ⟨.segment 0, 10⟩ = location := by
    simpa [task, Task.recorded, Reference.indexed] using waits
  rw [← here] at led
  have recorded : (state.references.toList.filter fun reference =>
      reference.kind = .indexedJump ∧ reference.source = some ⟨.segment 0, 4⟩).length = 1 := by
    decide +kernel
  obtain rfl : number = 1 := by
    have lengths := congrArg List.length led
    rw [List.length_map, List.length_map, List.length_range] at lengths
    exact lengths.symm.trans recorded
  exact ⟨task, rest, sample_built, sampleDecoder_placed, pointed, many, next, rfl, others, table,
    numbered, led⟩

end RealMode.Analysis
