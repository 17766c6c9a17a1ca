import Mathlib.Data.List.Perm.Subperm
import RealMode.Proofs.Analysis.References

/-! Table slots in their turn.

A jump through a table waits for one slot at a time: for the first one when it is read, and for the
next one when a slot has been consumed. So it consumes its slots in their order. Indexed jumps are
the last in the order of tasks and stand in one line, so they leave in the order of their slots,
too. -/

set_option autoImplicit false

namespace RealMode.Analysis

instance : Std.TransCmp Task.order :=
  inferInstanceAs (Std.TransCmp (compareOn fun task : Task => task.reference.kind.priority))

/-- The tasks that are known, in the order in which they are followed. -/
def Moment.tasks (moment : Moment) : List Task :=
  moment.activity.task?.toList ++ moment.state.pending.toList

/-- The tasks with which a search begins aim at entry points. -/
theorem kind_of_mem_enter {origin : Program} {settings : Settings} {entries : List EntryPoint}
    {task : Task}
    (member : task ∈ (Moment.mk ((fresh origin settings).enter entries) .idle).tasks) :
    task.reference.kind = .entry := by
  rw [enter_eq] at member
  rcases Queue.mem_enqueueAll.mp (by simpa [Moment.tasks, Activity.task?] using member) with
    entered | earlier
  · obtain ⟨entry, -, rfl⟩ := List.mem_map.mp entered
    rfl
  · simp at earlier

/-- No task comes after that of an indexed jump. -/
theorem order_indexed {task : Task} (indexed : task.reference.kind = .indexedJump) (other : Task) :
    Task.order other task ≠ .gt := by
  simp only [Task.order, Reference.comparePriority, indexed]
  cases other.reference.kind <;> decide

/-- Whether a task waits for a slot of a jump. -/
def waitsFor (jump : Address) (task : Task) : Bool :=
  awaitsSlot task.reference && task.reference.source = some jump

/-- Whether a task goes where the word in a slot leads. -/
def followsSlot (task : Task) : Bool :=
  task.reference.kind = .indexedJump && task.reference.target.isSome

/-- An instruction raises a task for an indexed jump only if it goes through a table, and then no
other. -/
theorem departures_of_indexed {state : Analysis} {instruction : Instruction} {here : Address}
    {task : Task} (member : task ∈ state.departures instruction here)
    (indexed : task.reference.kind = .indexedJump) :
    ∃ table, JumpTable.start? state.program instruction here = some table ∧
      state.departures instruction here = [.recorded (.indexed here table)] := by
  unfold departures at member ⊢
  cases flow : instruction.flow with
  | next | interrupt | ret | halt => simp [flow] at member
  | call far =>
      simp only [flow, List.mem_singleton] at member
      subst member
      cases far <;> cases indexed
  | jump far =>
      simp only [flow] at member ⊢
      cases found : state.tableOf? instruction here far with
      | none =>
          rw [found, List.mem_singleton] at member
          subst member
          cases far <;> cases indexed
      | some table =>
          refine ⟨table, ?_, rfl⟩
          unfold tableOf? at found
          split at found
          · exact found
          · cases found
  | conditionalJump =>
      simp only [flow, List.mem_cons, Option.mem_toList, Option.map_eq_some_iff] at member
      rcases member with rfl | ⟨next, -, rfl⟩ <;> cases indexed

theorem kind_of_followsSlot {task : Task} (follows : followsSlot task = true) :
    task.reference.kind = .indexedJump := by
  simp only [followsSlot, Bool.and_eq_true, decide_eq_true_eq] at follows
  exact follows.1

theorem not_followsSlot {task : Task} (awaits : awaitsSlot task.reference = true) :
    followsSlot task = false := by
  simp only [awaitsSlot, Bool.and_eq_true, Option.isNone_iff_eq_none] at awaits
  simp [followsSlot, awaits.1.2]

theorem not_followsSlot_of_departure {state : Analysis} {instruction : Instruction} {here : Address}
    {task : Task} (member : task ∈ state.departures instruction here) : followsSlot task = false := by
  rw [Bool.eq_false_iff]
  intro follows
  obtain ⟨table, -, only⟩ := departures_of_indexed member (kind_of_followsSlot follows)
  rw [only, List.mem_singleton] at member
  subst member
  cases follows

theorem kind_of_waitsFor {jump : Address} {task : Task} (waits : waitsFor jump task = true) :
    task.reference.kind = .indexedJump ∧ task.reference.source = some jump := by
  simp only [waitsFor, awaitsSlot, Bool.and_eq_true, decide_eq_true_eq] at waits
  exact ⟨waits.1.1.1, waits.2⟩

/-- The slot with a number in the table of a jump. -/
def tableSlot? (program : Program) (jump table : Address) (number : Nat) : Option ConsumedSlot := do
  let location ← slotAddress? table number
  let place ← program.resolve location
  some ⟨place, location, jump⟩

/-- A jump has consumed the first slots of its table, and it waits for no slot but the next. -/
structure InTurn (origin : Program) (jump table : Address) (count : Nat) (moment : Moment) : Prop where
  slots : (moment.state.slots.filter fun slot => slot.jump = jump).map some =
    (List.range count).map (tableSlot? origin jump table)
  waiting : moment.tasks.filter (waitsFor jump) = [] ∨
    ∃ location, slotAddress? table count = some location ∧
      moment.tasks.filter (waitsFor jump) = [.recorded (.indexed jump location)]

namespace InTurn

variable {decoder : Decoder} {origin : Program} {jump table : Address} {count : Nat}
  {before after : Moment}

/-- No task of the jump is added. -/
theorem keep (inTurn : InTurn origin jump table count before)
    (slots : (after.state.slots.filter fun slot => slot.jump = jump) =
      before.state.slots.filter fun slot => slot.jump = jump)
    (fewer : (after.tasks.filter (waitsFor jump)).Subperm (before.tasks.filter (waitsFor jump))) :
    InTurn origin jump table count after := by
  have waiting : after.tasks.filter (waitsFor jump) = [] ∨
      after.tasks.filter (waitsFor jump) = before.tasks.filter (waitsFor jump) := by
    rcases inTurn.waiting with nothing | ⟨location, -, one⟩
    · rw [nothing] at fewer ⊢
      exact .inl (List.subperm_nil.mp fewer)
    · rw [one] at fewer ⊢
      have few := fewer.length_le
      cases left : after.tasks.filter (waitsFor jump) with
      | nil => exact .inl rfl
      | cons task rest =>
          rw [left] at fewer few
          obtain rfl : rest = [] := List.eq_nil_of_length_eq_zero (by simpa using few)
          rw [List.mem_singleton.mp (fewer.subset List.mem_cons_self)]
          exact .inr rfl
  refine ⟨slots ▸ inTurn.slots, ?_⟩
  rcases waiting with nothing | same
  · exact .inl nothing
  · rw [same]
    exact inTurn.waiting

/-- The slot for which the jump has waited is consumed, and it waits for the one behind it. -/
theorem consume {state : Analysis} {task : Task} {slot : JumpTable.Slot}
    (inTurn : InTurn origin jump table count ⟨state, .following task⟩)
    (remarked : origin.Remarked state.program)
    (reads : JumpTable.Reads state.program task.reference jump slot) :
    InTurn origin jump table (count + 1) ⟨state.consumed jump slot, .idle⟩ := by
  have waits : waitsFor jump task = true := by
    simp [waitsFor, awaitsSlot, reads.waits, Reference.indexed]
  have tasks : (Moment.mk state (.following task)).tasks = task :: state.pending.toList := rfl
  have waiting := inTurn.waiting
  rw [tasks, List.filter_cons_of_pos waits] at waiting
  obtain ⟨location, numbered, same⟩ := waiting.resolve_left (List.cons_ne_nil _ _)
  obtain ⟨rfl, alone⟩ := List.cons.inj same
  obtain rfl : location = slot.location := by simpa [Reference.indexed, Task.recorded] using reads.waits
  have located : origin.resolve slot.location = some slot.place :=
    (remarked.resolve _).symm.trans reads.reached
  have followed : waitsFor jump (.recorded slot.reference) = false := by
    obtain ⟨value, place, target, -⟩ := reads.target
    simp [waitsFor, awaitsSlot, Task.recorded, target, Reference.withTarget]
  have raised : ((Moment.mk (state.consumed jump slot) .idle).tasks.filter (waitsFor jump)).Perm
      ((slot.next.map Task.recorded).toList.filter (waitsFor jump)) := by
    have all := (state.pending.toList_enqueueAll_perm
      (Task.recorded slot.reference :: (slot.next.map Task.recorded).toList)).filter (waitsFor jump)
    rw [List.cons_append, List.filter_cons_of_neg (Bool.eq_false_iff.mp followed),
      List.filter_append, alone, List.append_nil] at all
    exact all
  rw [reads.next] at raised
  constructor
  · have slots := inTurn.slots
    simp only [consumed, List.filter_append, List.map_append, List.range_succ, slots]
    simp [tableSlot?, numbered, located]
  · cases ahead : slot.location.add? (UInt16.ofNat JumpTable.slotSize) with
    | none =>
        rw [ahead] at raised
        exact .inl raised.eq_nil
    | some next =>
        have waitsNext : waitsFor jump (.recorded (.indexed jump next)) = true := by
          simp [waitsFor, awaitsSlot, Task.recorded, Reference.indexed]
        rw [ahead] at raised
        refine .inr ⟨next, slotAddress?_succ numbered ahead, List.perm_singleton.mp (raised.trans ?_)⟩
        simp [waitsNext]

/-- A jump that is read has neither consumed a slot before nor waited for one. -/
theorem unread {state : Analysis} {task : Task} {start : Place} {offset length : Nat}
    (sound : Sound origin ⟨state, .scanning task start jump offset⟩)
    (traced : Traced decoder origin ⟨state, .scanning task start jump offset⟩)
    (free : state.program.Free ⟨start.image, offset⟩ length) :
    (Moment.mk state (.scanning task start jump offset)).tasks.filter (waitsFor jump) = [] ∧
      (state.slots.filter fun slot => slot.jump = jump) = [] := by
  have unknown := free.unknown free.inRun_self
  have fresh : ¬origin.Gains state.program .code ⟨start.image, offset⟩ := by
    rintro ⟨-, code⟩
    simp [Marks.isUnknown_of_meets code] at unknown
  have located := sound.located.2.1
  refine ⟨List.filter_eq_nil_iff.mpr fun other member waits => fresh ?_,
    List.filter_eq_nil_iff.mpr fun slot member same => fresh ?_⟩
  · have mentioned : Mentions ⟨state, .scanning task start jump offset⟩ other.reference := by
      rcases List.mem_append.mp member with taken | pending
      · exact .inHand (Option.mem_toList.mp taken)
      · exact .pending pending
    exact (sound.grounded _ mentioned).2 jump (kind_of_waitsFor waits).2 _ located
  · obtain ⟨-, -, place, reached, gains⟩ := traced.slots slot member
    rw [of_decide_eq_true same, ← sound.owned.remarked.resolve, located] at reached
    exact Option.some.inj reached ▸ gains

/-- A jump that is read waits for the first slot of its table, if it goes through one. -/
theorem advance {state : Analysis} {task : Task} {start : Place} {here : Address} {offset : Nat}
    {image : Image} {instruction : Instruction}
    (inTurn : InTurn origin jump table count ⟨state, .scanning task start here offset⟩)
    (sound : Sound origin ⟨state, .scanning task start here offset⟩)
    (traced : Traced decoder origin ⟨state, .scanning task start here offset⟩)
    (placed : decoder.Placed) (found : state.program.image? start.image = some image)
    (decoded : decoder image offset here.offset = .ok instruction)
    (unattributed : image.isUnattributed offset instruction.stop = true) {activity : Activity}
    (taken : activity.task? = some task) :
    ∃ table count, InTurn origin jump table count
      ⟨(state.markInstruction start.image offset instruction.length).departed instruction here,
        activity⟩ := by
  obtain ⟨free, -⟩ := free_of_decoded placed found decoded unattributed
  let marked := state.markInstruction start.image offset instruction.length
  have tasks : ((Moment.mk (marked.departed instruction here) activity).tasks).Perm
      (marked.departures instruction here ++
        (Moment.mk state (.scanning task start here offset)).tasks) := by
    have raised := state.pending.toList_enqueueAll_perm (marked.departures instruction here)
    rw [Moment.tasks, taken]
    exact (raised.cons task).trans List.perm_middle.symm
  have waiting := tasks.filter (waitsFor jump)
  rw [List.filter_append] at waiting
  by_cases raises : ∃ departure ∈ marked.departures instruction here, waitsFor jump departure = true
  · obtain ⟨departure, member, waits⟩ := raises
    obtain ⟨indexed, source⟩ := kind_of_waitsFor waits
    obtain rfl : here = jump := Option.some.inj ((mem_departures member).1.symm.trans source)
    obtain ⟨first, -, only⟩ := departures_of_indexed member indexed
    rw [only, List.mem_singleton] at member
    subst member
    obtain ⟨alone, unused⟩ := unread sound traced free
    rw [only, alone, List.append_nil, List.filter_cons_of_pos waits, List.filter_nil] at waiting
    exact ⟨first, 0, congrArg (List.map some) unused,
      .inr ⟨first, slotAddress?_zero first, List.perm_singleton.mp waiting⟩⟩
  · have nothing : (marked.departures instruction here).filter (waitsFor jump) = [] :=
      List.filter_eq_nil_iff.mpr fun departure member waits => raises ⟨departure, member, waits⟩
    rw [nothing, List.nil_append] at waiting
    exact ⟨table, count, inTurn.keep rfl waiting.subperm⟩

theorem step (inTurn : InTurn origin jump table count before) (sound : Sound origin before)
    (traced : Traced decoder origin before) (placed : decoder.Placed)
    (works : Works decoder before after) :
    ∃ table count, InTurn origin jump table count after := by
  obtain ⟨step, busy⟩ := works
  -- A task that is done or dismissed only makes the list of tasks shorter.
  have shorter {state later : Analysis} {activity : Activity} {task : Task}
      (inTurn : InTurn origin jump table count ⟨state, activity⟩)
      (taken : activity.task? = some task) (slots : later.slots = state.slots)
      (pending : later.pending = state.pending) :
      InTurn origin jump table count ⟨later, .idle⟩ := by
    refine inTurn.keep (by rw [slots]) (List.Sublist.subperm (List.Sublist.filter _ ?_))
    rw [Moment.tasks, Moment.tasks, taken, pending]
    exact List.sublist_cons_self ..
  cases step with
  | enter _ | derive _ _ _ _ => exact absurd ⟨rfl, rfl⟩ busy
  | take next _ =>
      refine ⟨table, count, inTurn.keep rfl (List.Perm.subperm (List.Perm.filter _ (.of_eq ?_)))⟩
      exact (Queue.toList_of_next? next).symm
  | dismiss _ | record _ | forget _ => exact ⟨table, count, shorter inTurn rfl rfl rfl⟩
  | skip _ _ | note _ _ _ | cut _ _ _ _ | begin _ _ _ _ | exhaust _ | miss _ | refuse _ _ _
  | close _ => exact ⟨table, count, inTurn.keep rfl (.refl _)⟩
  | advance _ found decoded unattributed =>
      exact inTurn.advance sound traced placed found decoded unattributed task?_activityBehind
  | @consume state task source slot reads =>
      by_cases same : source = jump
      · subst same
        exact ⟨table, count + 1, inTurn.consume sound.owned.remarked reads⟩
      · refine ⟨table, count, inTurn.keep (by simp [consumed, same]) ?_⟩
        have others : (Task.recorded slot.reference :: (slot.next.map Task.recorded).toList).filter
            (waitsFor jump) = [] := by
          refine List.filter_eq_nil_iff.mpr fun other member waits => same ?_
          exact Option.some.inj ((reads.source_of_mem member).symm.trans (kind_of_waitsFor waits).2)
        have raised := (state.pending.toList_enqueueAll_perm
          (Task.recorded slot.reference :: (slot.next.map Task.recorded).toList)).filter
            (waitsFor jump)
        rw [List.filter_append, others, List.nil_append] at raised
        exact raised.subperm.trans (List.Sublist.subperm (.filter _ (List.sublist_cons_self ..)))

theorem enter (origin : Program) (settings : Settings) (entries : List EntryPoint) (jump : Address) :
    InTurn origin jump jump 0 ⟨(fresh origin settings).enter entries, .idle⟩ := by
  have nothing : (Moment.mk ((fresh origin settings).enter entries) .idle).tasks.filter
      (waitsFor jump) = [] := by
    refine List.filter_eq_nil_iff.mpr fun task member waits => ?_
    cases (kind_of_mem_enter member).symm.trans (kind_of_waitsFor waits).1
  refine ⟨?_, .inl nothing⟩
  rw [enter_eq]
  rfl

/-- Every jump takes its slots in turn, all along a search. -/
theorem proceeds {program : Program} {settings : Settings} {entries : List EntryPoint}
    {moment : Moment} (regular : program.Regular) (placed : decoder.Placed)
    (proceeds : Proceeds decoder ⟨(fresh program settings).enter entries, .idle⟩ moment)
    (jump : Address) : ∃ table count, InTurn program jump table count moment := by
  induction proceeds with
  | refl => exact ⟨jump, 0, .enter program settings entries jump⟩
  | tail earlier works ih =>
      obtain ⟨table, count, inTurn⟩ := ih
      have steps : Steps decoder ⟨fresh program settings, .idle⟩ _ :=
        .head (enter_step _ entries) (Proceeds.steps earlier)
      exact inTurn.step (.steps regular placed steps) (.steps regular placed steps) placed works

end InTurn

/-- Indexed jumps have been recorded, or they wait to be, in the order of the slots that they have
read. -/
structure Lined (origin : Program) (moment : Moment) : Prop where
  ranked : Queue.Ranked Task.order moment.state.pending.lines
  listed : (moment.state.references.toList.filter fun reference => reference.kind = .indexedJump) ++
      (moment.tasks.filter followsSlot).map Task.reference =
    moment.state.slots.map (slotReference origin)

/-- A known task of an indexed jump is recorded and knows its slot. -/
theorem Ledger.indexed_of_known {decoder : Decoder} {origin : Program} {settings : Settings}
    {entries : List EntryPoint} {readings : List Reading} {finished : List Task} {moment : Moment}
    (ledger : Ledger decoder origin settings entries readings finished moment) {task : Task}
    (known : Knows moment task) (indexed : task.reference.kind = .indexedJump) :
    task.isRecorded = true ∧ task.reference.slot.isSome = true := by
  have member := ledger.mem_raised known
  simp only [raised, List.mem_append, List.mem_flatMap] at member
  rcases member with (entry | ⟨reading, -, departure⟩) | ⟨slot, -, followed⟩
  · obtain ⟨entry, -, rfl⟩ := List.mem_map.mp entry
    cases indexed
  · obtain ⟨table, -, only⟩ := departures_of_indexed departure indexed
    rw [only, List.mem_singleton] at departure
    subst departure
    exact ⟨rfl, rfl⟩
  · rcases List.mem_cons.mp followed with rfl | next
    · exact ⟨rfl, rfl⟩
    · rw [Option.mem_toList, Option.map_eq_some_iff] at next
      obtain ⟨location, -, rfl⟩ := next
      exact ⟨rfl, rfl⟩

namespace Lined

variable {decoder : Decoder} {origin : Program} {settings : Settings} {entries : List EntryPoint}
  {readings : List Reading} {finished : List Task} {before after : Moment}

theorem keep (lined : Lined origin before)
    (ranked : Queue.Ranked Task.order after.state.pending.lines)
    (references : after.state.references = before.state.references)
    (slots : after.state.slots = before.state.slots)
    (tasks : after.tasks.filter followsSlot = before.tasks.filter followsSlot) :
    Lined origin after := by
  refine ⟨ranked, ?_⟩
  rw [references, slots, tasks]
  exact lined.listed

/-- A slot that is consumed puts its jump at the end of the line. -/
theorem consume {state : Analysis} {task : Task} {source : Address} {slot : JumpTable.Slot}
    (lined : Lined origin ⟨state, .following task⟩) (remarked : origin.Remarked state.program)
    (reads : JumpTable.Reads state.program task.reference source slot) :
    Lined origin ⟨state.consumed source slot, .idle⟩ := by
  have awaits : awaitsSlot task.reference = true := by rw [reads.waits]; rfl
  obtain ⟨-, reference⟩ := slotReference_of_reads remarked reads
  have indexed : slot.reference.kind = .indexedJump := by rw [← reference]; rfl
  have follows : followsSlot (.recorded slot.reference) = true := by
    obtain ⟨value, place, target, -⟩ := reads.target
    have aimed : slot.reference.target.isSome = true := by rw [target]; rfl
    simp [followsSlot, Task.recorded, indexed, aimed]
  have waits : ∀ next ∈ (slot.next.map Task.recorded).toList, followsSlot next = false := by
    intro next member
    rw [reads.next, Option.map_map, Option.mem_toList, Option.map_eq_some_iff] at member
    obtain ⟨location, -, rfl⟩ := member
    rfl
  have line : (Moment.mk (state.consumed source slot) .idle).tasks.filter followsSlot =
      state.pending.toList.filter followsSlot ++ [.recorded slot.reference] :=
    calc (Moment.mk (state.consumed source slot) .idle).tasks.filter followsSlot
      _ = (state.pending.enqueue (.recorded slot.reference)).toList.filter followsSlot :=
          Queue.filter_enqueueAll waits _
      _ = (state.pending.toList ++ [Task.recorded slot.reference]).filter followsSlot := by
          rw [Queue.toList_enqueue_last lined.ranked (order_indexed indexed)]
      _ = state.pending.toList.filter followsSlot ++ [.recorded slot.reference] := by
          rw [List.filter_append, List.filter_cons_of_pos follows, List.filter_nil]
  have tasks : (Moment.mk state (.following task)).tasks.filter followsSlot =
      state.pending.toList.filter followsSlot :=
    List.filter_cons_of_neg (Bool.eq_false_iff.mp (not_followsSlot awaits))
  refine ⟨lined.ranked.enqueueAll _, ?_⟩
  have listed := lined.listed
  rw [tasks] at listed
  rw [line, List.map_append, ← List.append_assoc]
  simp only [consumed, List.map_append, List.map_cons, List.map_nil, reference]
  exact congrArg (· ++ _) listed

theorem step (lined : Lined origin before)
    (ledger : Ledger decoder origin settings entries readings finished before)
    (remarked : origin.Remarked before.state.program) (works : Works decoder before after) :
    Lined origin after := by
  obtain ⟨step, busy⟩ := works
  cases step with
  | enter _ | derive _ _ _ _ => exact absurd ⟨rfl, rfl⟩ busy
  | take next _ =>
      refine lined.keep (lined.ranked.next? next) rfl rfl (congrArg _ ?_)
      exact (Queue.toList_of_next? next).symm
  | @dismiss state task awaits =>
      refine lined.keep lined.ranked rfl rfl ?_
      exact (List.filter_cons_of_neg (Bool.eq_false_iff.mp (not_followsSlot awaits))).symm
  | skip _ _ | note _ _ _ | cut _ _ _ _ | begin _ _ _ _ | exhaust _ | miss _ | refuse _ _ _
  | close _ => exact lined.keep lined.ranked rfl rfl rfl
  | @advance state task start here offset _ instruction _ _ _ _ =>
      refine lined.keep (lined.ranked.enqueueAll _) rfl rfl ?_
      let marked := state.markInstruction start.image offset instruction.length
      have others : ∀ raised ∈ marked.departures instruction here, followsSlot raised = false :=
        fun _ member => not_followsSlot_of_departure member
      rw [Moment.tasks, Moment.tasks, task?_activityBehind, List.filter_append, List.filter_append]
      exact congrArg (_ ++ ·) (Queue.filter_enqueueAll others state.pending)
  | consume reads => exact lined.consume remarked reads
  | @record state task _ =>
      refine ⟨lined.ranked, ?_⟩
      have listed := lined.listed
      have tasks : (Moment.mk state (.settled task)).tasks = task :: state.pending.toList := rfl
      rw [tasks] at listed
      rw [Graph.toList_add, List.filter_append, List.append_assoc]
      by_cases indexed : task.reference.kind = .indexedJump
      · have follows : followsSlot task = true := by
          have known := (ledger.indexed_of_known (.inr rfl) indexed).2
          have ready : awaitsSlot task.reference = false := ledger.ready
          simpa [followsSlot, awaitsSlot, indexed, known, Option.isSome_iff_ne_none] using ready
        rw [List.filter_cons_of_pos follows] at listed
        rw [List.filter_cons_of_pos (by simpa using indexed)]
        exact listed
      · have other : followsSlot task = false := by simp [followsSlot, indexed]
        rw [List.filter_cons_of_neg (Bool.eq_false_iff.mp other)] at listed
        rw [List.filter_cons_of_neg (by simpa using indexed)]
        exact listed
  | @forget state task unrecorded =>
      have other : followsSlot task = false := by
        rw [Bool.eq_false_iff]
        intro follows
        have recorded := (ledger.indexed_of_known (.inr rfl) (kind_of_followsSlot follows)).1
        rw [recorded] at unrecorded
        cases unrecorded
      refine lined.keep lined.ranked rfl rfl ?_
      exact (List.filter_cons_of_neg (Bool.eq_false_iff.mp other)).symm

theorem enter (origin : Program) (settings : Settings) (entries : List EntryPoint) :
    Lined origin ⟨(fresh origin settings).enter entries, .idle⟩ := by
  have nothing : (Moment.mk ((fresh origin settings).enter entries) .idle).tasks.filter followsSlot =
      [] := by
    refine List.filter_eq_nil_iff.mpr fun task member follows => ?_
    cases (kind_of_mem_enter member).symm.trans (kind_of_followsSlot follows)
  constructor
  · rw [enter_eq]
    exact Queue.Ranked.empty.enqueueAll _
  · rw [nothing, enter_eq]
    rfl

end Lined

/-- A task that waits for a slot is done when the slot has been consumed or cannot be read. -/
structure Served (finished : List Task) (moment : Moment) : Prop where
  raised : ∀ slot ∈ moment.state.slots, ∃ task ∈ finished,
    task.reference = .indexed slot.jump slot.location
  ended : ∀ task ∈ finished, awaitsSlot task.reference = true →
    (∃ slot ∈ moment.state.slots, task.reference = .indexed slot.jump slot.location) ∨
      JumpTable.Refuses moment.state.program task.reference

namespace Served

variable {decoder : Decoder} {origin : Program} {settings : Settings} {entries : List EntryPoint}
  {readings : List Reading} {finished later : List Task} {before after : Moment}

theorem keep (served : Served finished before) (slots : after.state.slots = before.state.slots)
    (remarked : before.state.program.Remarked after.state.program) : Served finished after where
  raised := slots ▸ served.raised
  ended task member awaits := by
    rw [slots]
    exact (served.ended task member awaits).imp_right (·.mono remarked)

theorem finish (served : Served finished before) {task : Task}
    (answered : awaitsSlot task.reference = true →
      JumpTable.Refuses before.state.program task.reference) :
    Served (finished ++ [task]) before where
  raised slot member := by
    obtain ⟨task, done, same⟩ := served.raised slot member
    exact ⟨task, List.mem_append_left _ done, same⟩
  ended other member awaits := by
    rcases List.mem_append.mp member with earlier | last
    · exact served.ended other earlier awaits
    · obtain rfl := List.mem_singleton.mp last
      exact .inr (answered awaits)

theorem consume {state : Analysis} {task : Task} {source : Address} {slot : JumpTable.Slot}
    (served : Served finished ⟨state, .following task⟩)
    (reads : JumpTable.Reads state.program task.reference source slot) :
    Served (finished ++ [task]) ⟨state.consumed source slot, .idle⟩ := by
  have remarked := reads.free.remarked (by decide : Content.data ≠ .padding)
  constructor
  · intro other member
    rcases List.mem_append.mp member with earlier | last
    · obtain ⟨task, done, same⟩ := served.raised other earlier
      exact ⟨task, List.mem_append_left _ done, same⟩
    · obtain rfl := List.mem_singleton.mp last
      exact ⟨task, List.mem_append_right _ List.mem_cons_self, reads.waits⟩
  · intro other member awaits
    rcases List.mem_append.mp member with earlier | last
    · rcases served.ended other earlier awaits with ⟨known, listed, same⟩ | refuses
      · exact .inl ⟨known, List.mem_append_left _ listed, same⟩
      · exact .inr (refuses.mono remarked)
    · obtain rfl := List.mem_singleton.mp last
      exact .inl ⟨_, List.mem_append_right _ List.mem_cons_self, reads.waits⟩

theorem step (served : Served finished before) (ready : before.activity.Ready)
    (placed : decoder.Placed) (step : Step decoder before after)
    (finishes : Finishes before finished later) : Served later after := by
  have remarked := step.remarked placed
  obtain ⟨state, activity⟩ := before
  cases finishes with
  | none unfinished =>
      refine served.keep ?_ remarked
      cases step with
      | consume reads =>
          rw [Activity.Unfinished, reads.waits] at unfinished
          cases unfinished
      | _ => rfl
  | @settled task settled =>
      obtain rfl : activity = .settled task := settled
      have done := served.finish fun awaits => absurd awaits (Bool.eq_false_iff.mp ready)
      cases step with
      | record _ | forget _ => exact done.keep rfl remarked
  | @waiting task follows awaits =>
      obtain rfl : activity = .following task := follows
      cases step with
      | dismiss _ refuses => exact (served.finish fun _ => refuses).keep rfl remarked
      | consume reads => exact served.consume reads
      | skip _ ready => exact absurd awaits (Bool.eq_false_iff.mp ready)
      | note points _ _ | cut points _ _ _ | begin points _ _ _ =>
          exact absurd awaits (Bool.eq_false_iff.mp (ready_of_target points))

/-- Slots are consumed and indexed jumps recorded in one order, all along a search. -/
theorem proceeds {program : Program} {moment : Moment} (regular : program.Regular)
    (placed : decoder.Placed)
    (proceeds : Proceeds decoder ⟨(fresh program settings).enter entries, .idle⟩ moment) :
    ∃ readings finished, Ledger decoder program settings entries readings finished moment ∧
      Lined program moment ∧ Served finished moment := by
  induction proceeds with
  | refl =>
      refine ⟨[], [], .enter decoder program settings entries, .enter program settings entries, ?_⟩
      rw [enter_eq]
      exact ⟨fun _ member => (by cases member), fun _ member => (by cases member)⟩
  | tail earlier works ih =>
      obtain ⟨readings, finished, ledger, lined, served⟩ := ih
      have sound := Sound.steps regular placed
        (.head (enter_step (fresh program settings) entries) (Proceeds.steps earlier))
      obtain ⟨_, _, later, -, finishes⟩ := ledger.step sound regular placed works
      exact ⟨_, _, later, lined.step ledger sound.owned.remarked works,
        served.step ledger.ready placed works.1 finishes⟩

end Served

end RealMode.Analysis
