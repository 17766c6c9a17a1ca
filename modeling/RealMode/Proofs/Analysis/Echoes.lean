import RealMode.Proofs.Analysis.Draining
import RealMode.Proofs.Analysis.Parting

/-! Two searches side by side, of which one records all of its tasks.

The other one leaves out the tasks that are not to be recorded. Neither looks at what it has recorded,
so both do the same tasks in the same order. -/

set_option autoImplicit false

namespace RealMode

/-- The task, to be recorded in any case. -/
def Task.loud (task : Task) : Task := .recorded task.reference

namespace Analysis

section Pursuit

variable {decoder : Decoder} {origin : Program} {settings : Settings} {entries : List EntryPoint}
  {readings : List Reading} {finished later : List Task} {before after : Moment} {task : Task}

/-- A step with a task in hand keeps it there, or it is done with that task and no other. -/
theorem Finishes.of_pursues (finishes : Finishes before finished later)
    (step : Step decoder before after) (taken : before.activity.task? = some task) :
    after.activity = .idle ∧ later = finished ++ [task] ∨
      after.activity.task? = some task ∧ later = finished := by
  obtain ⟨state, activity⟩ := before
  cases finishes with
  | none unfinished =>
      refine .inr ⟨?_, rfl⟩
      cases step with
      | enter _ | derive _ _ _ _ | take _ _ => cases taken
      | dismiss awaits => exact absurd awaits (Bool.eq_false_iff.mp unfinished)
      | consume reads =>
          rw [Activity.Unfinished, reads.waits] at unfinished
          cases unfinished
      | advance _ _ _ _ => exact task?_activityBehind.trans taken
      | record _ | forget _ => exact unfinished.elim
      | _ => exact taken
  | @settled settled same =>
      obtain rfl : activity = .settled settled := same
      obtain rfl := Option.some.inj taken
      cases step with
      | record _ | forget _ => exact .inl ⟨rfl, rfl⟩
  | @waiting waiting same awaits =>
      obtain rfl : activity = .following waiting := same
      obtain rfl := Option.some.inj taken
      cases step with
      | dismiss _ | consume _ => exact .inl ⟨rfl, rfl⟩
      | skip _ ready => exact absurd awaits (Bool.eq_false_iff.mp ready)
      | note points _ _ | cut points _ _ _ | begin points _ _ _ =>
          exact absurd awaits (Bool.eq_false_iff.mp (ready_of_target points))

/-- What has been read and done by a moment, and how the blocks end that have been found. -/
structure Chronicle (decoder : Decoder) (origin : Program) (settings : Settings)
    (entries : List EntryPoint) (readings : List Reading) (finished : List Task) (moment : Moment) :
    Prop where
  steps : Steps decoder ⟨.fresh origin settings, .idle⟩ moment
  ledger : Ledger decoder origin settings entries readings finished moment
  parted : Parted decoder readings moment

namespace Chronicle

variable (regular : origin.Regular) (placed : decoder.Placed)

include regular placed

theorem step (chronicle : Chronicle decoder origin settings entries readings finished before)
    (works : Works decoder before after) :
    ∃ laterReadings later,
      Chronicle decoder origin settings entries laterReadings later after ∧
        Finishes before finished later := by
  have sound := Sound.steps regular placed chronicle.steps
  obtain ⟨laterReadings, later, ledger, peruses, finishes⟩ :=
    chronicle.ledger.step sound regular placed works
  exact ⟨laterReadings, later, ⟨chronicle.steps.tail works.1, ledger,
    chronicle.parted.step sound regular placed works.1 peruses⟩, finishes⟩

/-- A task that is pursued to its end is done, and no other. -/
theorem pursue (chronicle : Chronicle decoder origin settings entries readings finished before)
    (taken : before.activity.task? = some task)
    (path : Relation.ReflTransGen (Pursues decoder) before after) :
    ∃ laterReadings later, Chronicle decoder origin settings entries laterReadings later after ∧
      (after.activity = .idle ∧ later = finished ++ [task] ∨
        after.activity.task? = some task ∧ later = finished) := by
  induction path with
  | refl => exact ⟨readings, finished, chronicle, .inr ⟨taken, rfl⟩⟩
  | tail _ pursues ih =>
      obtain ⟨_, later, middle, ⟨idle, -⟩ | ⟨inHand, rfl⟩⟩ := ih
      · exact absurd idle pursues.2
      · obtain ⟨laterReadings, last, ended, finishes⟩ := middle.step regular placed pursues.works
        exact ⟨laterReadings, last, ended, finishes.of_pursues pursues.1 inHand⟩

theorem process {state : Analysis} {rest : Agenda}
    (chronicle : Chronicle decoder origin settings entries readings finished ⟨state, .idle⟩)
    (next : state.pending.next? = some (task, rest))
    (room : state.instructions < state.settings.maxInstructions) :
    (process decoder { state with pending := rest } task).fault = none ∧
      ∃ laterReadings, Chronicle decoder origin settings entries laterReadings (finished ++ [task])
        ⟨(Analysis.process decoder { state with pending := rest } task).state, .idle⟩ := by
  obtain ⟨_, later, taken, finishes⟩ := chronicle.step regular placed (Step.works (.take next room))
  have same : later = finished := by
    cases finishes with
    | none _ => rfl
    | settled busy | waiting busy _ => cases busy
  subst same
  have sound := Sound.steps regular placed taken.steps
  obtain ⟨faultless, path⟩ :=
    (process_leads _ task).steps (fun _ _ => And.left) sound regular placed
  obtain ⟨laterReadings, _, ended, ⟨-, rfl⟩ | ⟨inHand, -⟩⟩ := taken.pursue regular placed rfl path
  · exact ⟨faultless, laterReadings, ended⟩
  · cases inHand

end Chronicle

end Pursuit

/-- The settings under which every task is recorded, and the state of a search that has done so. -/
def loudGuise (settings : Settings) (references : ReferenceGraph) : Guise :=
  ⟨settings, fun _ => references, Queue.map Task.loud, id⟩

theorem order_loud (left right : Task) : Task.order left.loud right.loud = Task.order left right :=
  rfl

theorem loudGuise_suits {quiet loud : Settings} (tables : quiet.jumpTables = loud.jumpTables)
    (records : loud.recordFallThrough = true) (references : ReferenceGraph) :
    (loudGuise loud references).Suits quiet where
  tables := tables
  recorded pending reference := (Queue.enqueue_map order_loud pending (.recorded reference)).symm
  onward pending reference := by
    rw [loudGuise, records]
    exact (Queue.enqueue_map order_loud pending _).symm

/-- Two searches stand at the same task, and the second one has recorded all that are done. -/
structure Echoes (settings : Settings) (finished : List Task) (quiet loud : Analysis) : Prop where
  recast : loud = quiet.recast (loudGuise settings loud.references)
  recorded : loud.references.toList = (finished.filter isReady).map Task.reference

section Echoes

variable {decoder : Decoder} {settings : Settings} {quiet loud : Analysis} {finished : List Task}
  {task : Task}

theorem Echoes.of_recast {references : ReferenceGraph}
    (same : loud = quiet.recast (loudGuise settings references))
    (recorded : references.toList = (finished.filter isReady).map Task.reference) :
    Echoes settings finished quiet loud := by
  subst same
  exact ⟨rfl, recorded⟩

theorem Echoes.program (echoes : Echoes settings finished quiet loud) :
    loud.program = quiet.program := by
  rw [echoes.recast]
  rfl

theorem Echoes.blocks (echoes : Echoes settings finished quiet loud) :
    loud.blocks = quiet.blocks := by
  rw [echoes.recast]
  rfl

theorem Echoes.instructions (echoes : Echoes settings finished quiet loud) :
    loud.instructions = quiet.instructions := by
  rw [echoes.recast]
  rfl

/-- The same is left to do in both searches. -/
theorem Echoes.pending (echoes : Echoes settings finished quiet loud) :
    loud.pending.toList.map Task.reference = quiet.pending.toList.map Task.reference := by
  have waiting : loud.pending = quiet.pending.map Task.loud := by
    rw [echoes.recast]
    rfl
  rw [waiting, Queue.toList_map, List.map_map]
  rfl

/-- A task leaves the same state behind, but for the references. -/
theorem process_echoes (tables : quiet.settings.jumpTables = settings.jumpTables)
    (limit : quiet.settings.maxInstructions = settings.maxInstructions)
    (records : settings.recordFallThrough = true) (echoes : Echoes settings finished quiet loud)
    (quietDone : (process decoder quiet task).fault = none)
    (loudDone : (process decoder loud task.loud).fault = none) :
    Echoes settings (finished ++ [task]) (process decoder quiet task).state
      (process decoder loud task.loud).state := by
  obtain ⟨same, recorded⟩ := echoes
  have suits := loudGuise_suits tables records loud.references
  cases awaits : awaitsSlot task.reference with
  | true =>
      have loudAwaits : awaitsSlot task.loud.reference = true := awaits
      simp only [process, awaits, loudAwaits, if_true, Outcome.done]
      refine .of_recast ((congrArg (readSlot · task.reference) same).trans
        (readSlot_recast suits task.reference)) (recorded.trans ?_)
      simp [isReady, awaits]
  | false =>
      have loudReady : awaitsSlot task.loud.reference = false := awaits
      obtain ⟨followed, found, result⟩ := process_eq_done awaits (Outcome.eq_done quietDone)
      obtain ⟨further, loudFound, loudResult⟩ :=
        process_eq_done loudReady (Outcome.eq_done loudDone)
      have pursued : pursue decoder loud task.reference = _ :=
        (congrArg (pursue decoder · task.reference) same).trans
          (pursue_recast suits limit decoder task.reference)
      rw [found] at pursued
      obtain rfl : further = followed.recast (loudGuise settings loud.references) :=
        congrArg Outcome.state (loudFound.symm.trans pursued)
      have recording : task.loud.isRecorded = true := rfl
      rw [result, loudResult, if_pos recording]
      have grown : (loud.references.add task.reference).toList =
          ((finished ++ [task]).filter isReady).map Task.reference := by
        simp [recorded, isReady, awaits]
      refine .of_recast ?_ grown
      split <;> rfl

end Echoes

section Drain

variable {decoder : Decoder} {program : Program} {own settings : Settings}
  {entries : List EntryPoint} {readings : List Reading} {finished : List Task}
  {quiet loud : Analysis} (regular : program.Regular) (placed : decoder.Placed)
  (tables : own.jumpTables = settings.jumpTables)
  (limit : own.maxInstructions = settings.maxInstructions)
  (records : settings.recordFallThrough = true)

include regular placed tables limit records

/-- Two searches that start side by side end so. -/
theorem drain_echoes {budget : Nat}
    (chronicle : Chronicle decoder program own entries readings finished ⟨quiet, .idle⟩)
    (echoes : Echoes settings finished quiet loud)
    (loudDone : (drain decoder budget loud).fault = none) :
    ∃ laterReadings later,
      Chronicle decoder program own entries laterReadings later
        ⟨(drain decoder budget quiet).state, .idle⟩ ∧
      Echoes settings later (drain decoder budget quiet).state (drain decoder budget loud).state := by
  induction budget generalizing quiet loud readings finished with
  | zero => exact ⟨readings, finished, chronicle, echoes⟩
  | succ budget ih =>
      have configured : quiet.settings = own := chronicle.ledger.configured
      have pending : loud.pending.next? =
          quiet.pending.next?.map (Prod.map Task.loud (Queue.map Task.loud)) := by
        rw [echoes.recast]
        exact Queue.next?_map _ _
      have bounded : loud.settings.maxInstructions ≤ loud.instructions ↔
          quiet.settings.maxInstructions ≤ quiet.instructions := by
        rw [echoes.recast, configured, limit]
        rfl
      rw [drain] at loudDone
      rw [drain, drain]
      cases next : quiet.pending.next? with
      | none =>
          rw [next] at pending
          rw [pending]
          exact ⟨readings, finished, chronicle, echoes⟩
      | some taken =>
          obtain ⟨task, rest⟩ := taken
          rw [next] at pending
          rw [pending] at loudDone ⊢
          dsimp only [Option.map_some, Prod.map] at loudDone ⊢
          by_cases spent : quiet.settings.maxInstructions ≤ quiet.instructions
          · rw [if_pos spent, if_pos (bounded.mpr spent)]
            exact ⟨readings, finished, chronicle, echoes⟩
          · rw [if_neg (mt bounded.mp spent)] at loudDone
            rw [if_neg spent, if_neg (mt bounded.mp spent)]
            obtain ⟨quietFaultless, laterReadings, done⟩ :=
              chronicle.process regular placed next (Nat.lt_of_not_le spent)
            have taken := congrArg
              (fun state : Analysis => { state with pending := rest.map Task.loud }) echoes.recast
            have beside : Echoes settings finished { quiet with pending := rest }
                { loud with pending := rest.map Task.loud } := .of_recast taken echoes.recorded
            cases failed : (process decoder { loud with pending := rest.map Task.loud }
                task.loud).fault with
            | some fault =>
                rw [failed] at loudDone
                cases failed.symm.trans loudDone
            | none =>
                rw [failed] at loudDone
                rw [quietFaultless]
                have settled := process_echoes (by rw [configured]; exact tables)
                  (by rw [configured]; exact limit) records beside quietFaultless failed
                exact ih done settled loudDone

/-- A search that records every task does the same as one that does not, task by task. -/
theorem findBlocks_echoes (tasks : own.maxTasks = settings.maxTasks) :
    ∃ readings finished,
      Chronicle decoder program own entries readings finished
        ⟨(findBlocks decoder (.fresh program own) entries).state, .idle⟩ ∧
      Echoes settings finished (findBlocks decoder (.fresh program own) entries).state
        (findBlocks decoder (.fresh program settings) entries).state := by
  have start : Reached decoder program settings (.fresh program settings) := .refl
  have loudDone := (start.findBlocks regular placed entries).faultless
  have chronicle : Chronicle decoder program own entries [] []
      ⟨(fresh program own).enter entries, .idle⟩ :=
    ⟨.single (enter_step _ entries), .enter decoder program own entries,
      .enter decoder program own entries⟩
  have queued : ((entryTasks entries).foldl Queue.enqueue .empty).map Task.loud =
      ((entryTasks entries).foldl Queue.enqueue .empty : Agenda) := by
    have same : (entryTasks entries).map Task.loud = entryTasks entries := by
      simp [entryTasks, Task.loud, Task.recorded]
    rw [← Queue.enqueueAll_map order_loud, same]
    rfl
  have echoes : Echoes settings [] ((fresh program own).enter entries)
      ((fresh program settings).enter entries) := by
    rw [enter_eq, enter_eq]
    refine ⟨?_, rfl⟩
    simp only [recast, loudGuise, queued]
    rfl
  unfold findBlocks at loudDone ⊢
  have budget : (fresh program own).settings.maxTasks = (fresh program settings).settings.maxTasks :=
    tasks
  rw [budget]
  exact drain_echoes regular placed tables limit records chronicle echoes loudDone

end Drain

end Analysis

end RealMode
