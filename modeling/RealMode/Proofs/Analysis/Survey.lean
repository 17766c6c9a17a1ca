import RealMode.Proofs.Analysis.Endings

/-! Searches in one segment that come to their end.

Every address that such a search looks for has been answered: an instruction has been marked there, or
there is none, or none could be marked any more and a finding says so. Blocks start where a task has
been followed to an instruction. -/

set_option autoImplicit false

namespace RealMode.Analysis

/-- The conditions of a search in one segment. -/
structure InSegment (decoder : Decoder) (origin : Program) (settings : Settings)
    (entries : List EntryPoint) : Prop where
  regular : origin.Regular
  flat : origin.Flat
  placed : decoder.Placed
  blind : decoder.Blind
  stays : decoder.Local
  tables : settings.jumpTables = false
  home : ∀ entry ∈ entries, entry.address.referent = .segment 0

/-- What has come of a task that is done. -/
def Followed (decoder : Decoder) (origin : Program) (state : Analysis) (task : Task) : Prop :=
  ∀ target, task.reference.target = some target →
    Answered origin state task.reference target ∧
      ∀ place, state.program.resolve target = some place → Settled decoder origin state place

/-- What is known at every moment of a search in one segment. -/
structure Survey (decoder : Decoder) (origin : Program) (settings : Settings)
    (entries : List EntryPoint) (readings : List Reading) (finished : List Task) (moment : Moment) :
    Prop where
  proceeds : Proceeds decoder.pinned ⟨(fresh origin settings).enter entries, .idle⟩ moment
  ledger : Ledger decoder.pinned origin settings entries readings finished moment
  sought : ∀ reading ∈ readings, Sought decoder.pinned origin entries reading.here
  followed : ∀ task ∈ finished, Followed decoder.pinned origin moment.state task
  starts : ∀ block ∈ moment.state.blocks.blocks, ∃ task,
    (task ∈ finished ∨ moment.activity = .settled task) ∧
      Aims moment.state.program task block.first
  accounted : Accounted decoder.pinned origin moment
  truthful : Truthful decoder.pinned origin moment.state

section Run

variable {decoder : Decoder} {origin : Program} {settings : Settings} {entries : List EntryPoint}
  {readings : List Reading} {finished later : List Task} {before after moment : Moment}

theorem Finishes.subset (finishes : Finishes before finished later) : finished ⊆ later := by
  cases finishes with
  | none _ => exact List.Subset.refl _
  | settled _ | waiting _ _ => exact List.subset_append_left _ _

theorem Finishes.mem_of_settled (finishes : Finishes before finished later) {task : Task}
    (settled : before.activity = .settled task) : task ∈ later := by
  cases finishes with
  | none unfinished =>
      rw [settled] at unfinished
      exact unfinished.elim
  | settled same =>
      cases settled.symm.trans same
      exact List.mem_append_right _ List.mem_cons_self
  | waiting follows _ => cases settled.symm.trans follows

theorem Ledger.slots_eq_nil
    (ledger : Ledger decoder origin settings entries readings finished moment)
    (tables : settings.jumpTables = false) : moment.state.slots = [] := by
  refine List.eq_nil_iff_forall_not_mem.mpr fun slot member => ?_
  obtain ⟨-, reading, -, -, table⟩ := ledger.slots slot member
  simp [goesThroughTable, tables] at table

theorem Followed.step {task : Task} (followed : Followed decoder origin before.state task)
    (sound : Sound origin before) (regular : origin.Regular) (placed : decoder.Placed)
    (steady : decoder.Steady Instruction.length) (step : Step decoder before after) :
    Followed decoder origin after.state task := by
  intro target points
  obtain ⟨answered, settled⟩ := followed target points
  refine ⟨answered.step sound regular placed step, fun place reached => ?_⟩
  rw [(step.remarked placed).resolve] at reached
  exact (settled place reached).step sound regular placed steady step

namespace Survey

theorem steps (survey : Survey decoder origin settings entries readings finished moment) :
    Steps decoder.pinned ⟨fresh origin settings, .idle⟩ moment :=
  .head (enter_step _ entries) survey.proceeds.steps

theorem enter (decoder : Decoder) (origin : Program) (settings : Settings)
    (entries : List EntryPoint) :
    Survey decoder origin settings entries [] [] ⟨(fresh origin settings).enter entries, .idle⟩ where
  proceeds := .refl
  ledger := .enter decoder.pinned origin settings entries
  sought _ member := by cases member
  followed _ member := by cases member
  starts block member := by
    rw [enter_eq] at member
    simp [fresh, BlockIndex.empty] at member
  accounted := by
    rw [enter_eq]
    refine ⟨fun block member => ?_, trivial⟩
    simp [fresh, BlockIndex.empty] at member
  truthful := by
    rw [enter_eq]
    rintro target code ⟨diagnostic, member, -⟩
    simp [fresh] at member

variable (inside : InSegment decoder origin settings entries)

include inside

theorem followed_step (survey : Survey decoder origin settings entries readings finished before)
    (finishes : Finishes before finished later) (step : Step decoder.pinned before after) :
    ∀ task ∈ later, Followed decoder.pinned origin after.state task := by
  have regular := inside.regular
  have placed := inside.placed.pinned
  have steady := inside.blind.pinned_steady Instruction.length
  have sound := Sound.steps regular placed survey.steps
  intro task member
  refine Followed.step ?_ sound regular placed steady step
  cases finishes with
  | none _ => exact survey.followed task member
  | settled settled =>
      rcases List.mem_append.mp member with earlier | last
      · exact survey.followed task earlier
      · obtain rfl := List.mem_singleton.mp last
        have pursued := (Audited.steps regular placed survey.steps).pursued
        have attempted := Attempted.steps regular placed steady survey.steps
        rw [settled] at pursued attempted
        exact fun target points => ⟨pursued target points,
          fun place reached => attempted place ⟨target, points, reached⟩⟩
  | waiting follows awaits =>
      have ready := survey.ledger.ready_of_knows inside.tables (.inr (by rw [follows]; rfl))
      rw [awaits] at ready
      cases ready

theorem starts_step (survey : Survey decoder origin settings entries readings finished before)
    (finishes : Finishes before finished later) (step : Step decoder.pinned before after) :
    ∀ block ∈ after.state.blocks.blocks, ∃ task,
      (task ∈ later ∨ after.activity = .settled task) ∧
        Aims after.state.program task block.first := by
  have placed := inside.placed.pinned
  have sound := Sound.steps inside.regular placed survey.steps
  intro block member
  rcases (sound.blocks_step inside.regular step).first_cases sound member with
    ⟨earlier, known, same⟩ | ⟨task, settled, aims⟩
  · obtain ⟨task, taken, target, points, reached⟩ := survey.starts earlier known
    rw [same] at reached
    have aims : Aims after.state.program task block.first :=
      ⟨target, points, ((step.remarked placed).resolve target).trans reached⟩
    rcases taken with done | settled
    · exact ⟨task, .inl (finishes.subset done), aims⟩
    · exact ⟨task, .inl (finishes.mem_of_settled settled), aims⟩
  · exact ⟨task, .inr settled, aims⟩

theorem fits (survey : Survey decoder origin settings entries readings finished moment) (task : Task)
    (start : Place) (here : Address) (offset : Nat)
    (scanning : moment.activity = .scanning task start here offset) :
    here.offset.toNat = offset := by
  have sound := Sound.steps inside.regular inside.placed.pinned survey.steps
  have seeks := Seeks.proceeds inside.regular inside.placed.pinned inside.blind.pinned inside.tables
    survey.proceeds
  have home := (seeks.scanned _ _ _ _ scanning).home inside.placed.pinned inside.stays.pinned
    inside.home
  obtain ⟨state, activity⟩ := moment
  obtain rfl : activity = .scanning task start here offset := scanning
  exact (sound.offset_eq inside.flat home).2

theorem step (survey : Survey decoder origin settings entries readings finished before)
    (works : Works decoder.pinned before after) :
    ∃ readings finished, Survey decoder origin settings entries readings finished after := by
  have regular := inside.regular
  have placed := inside.placed.pinned
  have steady := inside.blind.pinned_steady Instruction.length
  have sound := Sound.steps regular placed survey.steps
  have dataless (place : Place) : (before.state.program.marksAt place).isData = false :=
    sound.owned.isData_eq_false (inside.flat.unknown place) (survey.ledger.slots_eq_nil inside.tables)
  obtain ⟨laterReadings, laterFinished, ledger, peruses, finishes⟩ :=
    survey.ledger.step sound regular placed works
  refine ⟨laterReadings, laterFinished, survey.proceeds.tail works, ledger, ?_,
    survey.followed_step inside finishes works.1, survey.starts_step inside finishes works.1,
    ⟨survey.accounted.blocks_step sound regular placed steady works.1,
      survey.accounted.closing_step sound (.steps regular placed survey.steps)
        (.steps regular placed survey.steps) placed steady (survey.fits inside) works.1⟩,
    survey.truthful.step sound inside.blind.pinned dataless works⟩
  have seeks := Seeks.proceeds regular placed inside.blind.pinned inside.tables survey.proceeds
  cases peruses with
  | none _ => exact survey.sought
  | one _ _ _ _ =>
      rintro reading (_ | ⟨_, earlier⟩)
      · exact seeks.scanned _ _ _ _ rfl
      · exact survey.sought reading earlier

theorem of_proceeds
    (proceeds : Proceeds decoder ⟨(fresh origin settings).enter entries, .idle⟩ moment) :
    ∃ readings finished, Survey decoder origin settings entries readings finished moment := by
  have pinned := Proceeds.pinned inside.regular inside.placed inside.blind inside.stays inside.flat
    inside.tables inside.home proceeds
  clear proceeds
  induction pinned with
  | refl => exact ⟨[], [], .enter decoder origin settings entries⟩
  | tail _ works ih =>
      obtain ⟨readings, finished, survey⟩ := ih
      exact survey.step inside works

end Survey

end Run

end RealMode.Analysis
