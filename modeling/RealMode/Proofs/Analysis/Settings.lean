import RealMode.Proofs.Analysis.Frame

/-! What the search reads of its settings, and what it only writes.

Apart from the limits it looks at two settings only. It never looks at what has been recorded, and it
adds to the tasks that wait without looking at them. So each function of the search takes a state
with other settings, records and tasks to the same state as before, with those in their place. -/

set_option autoImplicit false

namespace RealMode

/-- Other settings for a state, and something else for what has been recorded, for what waits and for
the edges between blocks. -/
structure Guise where
  settings : Settings
  references : ReferenceGraph → ReferenceGraph
  pending : Agenda → Agenda
  flow : FlowGraph → FlowGraph

/-- Nothing but the settings is replaced. -/
def Guise.plain (settings : Settings) : Guise := ⟨settings, id, id, id⟩

/-- A task that is put on the agenda finds its way into the other agenda. Of the tasks of a
conditional jump, the one for the path that is not taken is recorded as the settings want it. -/
structure Guise.Suits (guise : Guise) (settings : Settings) : Prop where
  tables : settings.jumpTables = guise.settings.jumpTables
  recorded : ∀ (pending : Agenda) (reference : Reference),
    guise.pending (pending.enqueue (.recorded reference)) =
      (guise.pending pending).enqueue (.recorded reference)
  onward : ∀ (pending : Agenda) (reference : Reference),
    guise.pending (pending.enqueue ⟨reference, settings.recordFallThrough⟩) =
      (guise.pending pending).enqueue ⟨reference, guise.settings.recordFallThrough⟩

/-- Both settings ask for the same treatment of tables and of conditional jumps. -/
def Settings.Agrees (left right : Settings) : Prop :=
  left.jumpTables = right.jumpTables ∧ left.recordFallThrough = right.recordFallThrough

theorem Settings.Agrees.suits {left right : Settings} (agrees : left.Agrees right) :
    (Guise.plain right).Suits left where
  tables := agrees.1
  recorded _ _ := rfl
  onward _ _ := by rw [agrees.2]; rfl

def Analysis.recast (state : Analysis) (guise : Guise) : Analysis :=
  { state with
    settings := guise.settings
    references := guise.references state.references
    pending := guise.pending state.pending
    flow := guise.flow state.flow }

def Outcome.recast (outcome : Outcome) (guise : Guise) : Outcome :=
  ⟨outcome.state.recast guise, outcome.fault⟩

theorem Outcome.andThen_recast {next : Analysis → Outcome} {guise : Guise}
    (kept : ∀ state, next (state.recast guise) = (next state).recast guise) (outcome : Outcome) :
    (outcome.recast guise).andThen next = (outcome.andThen next).recast guise := by
  obtain ⟨state, fault⟩ := outcome
  cases fault with
  | none => exact kept state
  | some fault => rfl

namespace Analysis

def Visit.recast (guise : Guise) : Visit → Visit
  | .refused state => .refused (state.recast guise)
  | .left state stop exit => .left (state.recast guise) stop exit
  | .passed state next stop => .passed (state.recast guise) next stop
  | .failed state fault => .failed (state.recast guise) fault

def Scanned.recast (scanned : Scanned) (guise : Guise) : Scanned :=
  { scanned with state := scanned.state.recast guise }

variable {state : Analysis} {guise : Guise}

section Blocks

variable (state : Analysis) (guise : Guise)

theorem splitAt_recast (place : Place) :
    (state.recast guise).splitAt place = (state.splitAt place).recast guise := by
  simp only [splitAt, recast]
  split
  · split
    · rfl
    · split <;> rfl
  · rfl

theorem addBlock_recast (block : Block) :
    (state.recast guise).addBlock block = (state.addBlock block).recast guise := by
  simp only [addBlock, recast]
  split <;> rfl

theorem closeBlock_recast (scanned : Scanned) (start : Place) :
    closeBlock (scanned.recast guise) start = (closeBlock scanned start).recast guise := by
  obtain ⟨state, stop, exit⟩ := scanned
  cases exit with
  | error fault => rfl
  | ok exit =>
      have joined : (if exit = .fallThrough then (state.recast guise).splitAt ⟨start.image, stop⟩
          else .done (state.recast guise)) =
          (if exit = .fallThrough then state.splitAt ⟨start.image, stop⟩
            else .done state).recast guise := by
        split
        · exact splitAt_recast ..
        · rfl
      unfold closeBlock Scanned.recast
      dsimp only
      rw [joined]
      refine Outcome.andThen_recast (fun state => ?_) _
      by_cases nothing : stop ≤ start.offset
      · rw [if_pos nothing, if_pos nothing]
        rfl
      · rw [if_neg nothing, if_neg nothing, addBlock_recast]

end Blocks

section Suits

variable (suits : guise.Suits state.settings)

include suits

theorem readSlot_recast (reference : Reference) :
    (state.recast guise).readSlot reference = (state.readSlot reference).recast guise := by
  simp only [readSlot, recast, enqueueRecorded, enqueue]
  split
  · rfl
  · split
    · simp only [suits.recorded]
    · simp only [suits.recorded]

theorem tableOf?_recast (instruction : Instruction) (here : Address) (far : Bool) :
    (state.recast guise).tableOf? instruction here far = state.tableOf? instruction here far := by
  simp only [tableOf?, recast, suits.tables]
  rfl

theorem departed_recast (instruction : Instruction) (here : Address) :
    (state.recast guise).departed instruction here =
      (state.departed instruction here).recast guise := by
  have tables := tableOf?_recast suits instruction here
  have pending : ((state.recast guise).departures instruction here).foldl Queue.enqueue
        (guise.pending state.pending) =
      guise.pending ((state.departures instruction here).foldl Queue.enqueue state.pending) := by
    unfold departures
    simp only [tables]
    cases instruction.flow with
    | ret | halt | next | interrupt => rfl
    | call far => exact (suits.recorded _ _).symm
    | jump far =>
        dsimp only
        split <;> exact (suits.recorded _ _).symm
    | conditionalJump =>
        cases following? instruction here with
        | none => exact (suits.recorded _ _).symm
        | some next =>
            simp only [Option.map_some, Option.toList_some, List.foldl_cons, List.foldl_nil]
            exact ((suits.onward _ _).trans (congrArg (Queue.enqueue · _) (suits.recorded _ _))).symm
  have dynamic : (state.recast guise).isDynamicBranch instruction here =
      state.isDynamicBranch instruction here := by
    simp only [isDynamicBranch, tables]
    rfl
  simp only [departed, remarks, dynamic]
  simp only [recast] at pending ⊢
  rw [pending]

theorem visit_recast (decoder : Decoder) (image : Nat) (here : Address) (offset : Nat) :
    visit decoder (state.recast guise) image here offset =
      (visit decoder state image here offset).recast guise := by
  have program : (state.recast guise).program = state.program := rfl
  simp only [visit, program]
  -- Only an instruction that is followed brings the settings and the agenda in.
  split
  · rfl
  · split
    · rfl
    · split
      · rfl
      · split
        · rfl
        · have marked (length : Nat) : (state.recast guise).markInstruction image offset length =
              (state.markInstruction image offset length).recast guise := rfl
          have followed (length : Nat) :
              guise.Suits (state.markInstruction image offset length).settings := suits
          rw [marked, depart_eq, depart_eq, departed_recast (followed _)]
          split <;> rfl

theorem scan_recast (decoder : Decoder) (image budget : Nat) (here : Address) (offset : Nat) :
    scan decoder image budget (state.recast guise) here offset =
      (scan decoder image budget state here offset).recast guise := by
  induction budget generalizing state here offset with
  | zero => rfl
  | succ budget ih =>
      rw [scan, scan, visit_recast suits]
      cases visited : visit decoder state image here offset with
      | refused after | left after stop exit | failed after fault => rfl
      | passed after next stop =>
          have standing := standing_visit decoder state image here offset
          rw [visited] at standing
          have kept : after.settings = state.settings := congrArg (·.1) standing
          have marks : (after.recast guise).program = after.program := rfl
          dsimp only [Visit.recast]
          rw [marks]
          split
          · rfl
          · exact ih (kept ▸ suits) ..

/-- Going where a reference points to takes no more of the settings than their limit. -/
theorem follow_recast (limit : state.settings.maxInstructions = guise.settings.maxInstructions)
    (decoder : Decoder) (reference : Reference) (target : Address) :
    follow decoder (state.recast guise) reference target =
      (follow decoder state reference target).recast guise := by
  have program : (state.recast guise).program = state.program := rfl
  have budget : (state.recast guise).settings.maxInstructions - (state.recast guise).instructions =
      state.settings.maxInstructions - state.instructions := by rw [limit]; rfl
  have explored (start : Place) : explore decoder (state.recast guise) target start =
      (explore decoder state target start).recast guise := by
    simp only [explore, program, budget, scan_recast suits, closeBlock_recast, splitAt_recast]
    split
    · rfl
    · split
      · split <;> rfl
      · rfl
  simp only [follow, program, explored]
  split
  · rfl
  · split <;> rfl

end Suits

/-- Goes where a reference points to, if it points anywhere. -/
def pursue (decoder : Decoder) (state : Analysis) (reference : Reference) : Outcome :=
  match reference.target with
  | none => .done state
  | some target => follow decoder state reference target

theorem pursue_of_target {decoder : Decoder} {state : Analysis} {reference : Reference}
    {target : Address} (points : reference.target = some target) :
    pursue decoder state reference = follow decoder state reference target := by
  rw [pursue, points]

theorem pursue_recast (suits : guise.Suits state.settings)
    (limit : state.settings.maxInstructions = guise.settings.maxInstructions) (decoder : Decoder)
    (reference : Reference) :
    pursue decoder (state.recast guise) reference =
      (pursue decoder state reference).recast guise := by
  unfold pursue
  cases reference.target with
  | none => rfl
  | some target => exact follow_recast suits limit decoder reference target

/-- A task that waits for no slot is pursued and then recorded, if it is to be. -/
theorem process_eq_done {decoder : Decoder} {state after : Analysis} {task : Task}
    (ready : awaitsSlot task.reference = false) (done : process decoder state task = .done after) :
    ∃ followed, pursue decoder state task.reference = .done followed ∧
      after = if task.isRecorded then
        { followed with references := followed.references.add task.reference } else followed := by
  simp only [process, ready, Bool.false_eq_true, if_false] at done
  obtain ⟨followed, found, recorded⟩ := Outcome.andThen_eq_done done
  refine ⟨followed, found, ?_⟩
  split at recorded
  · rename_i kept
    rw [if_pos kept]
    exact record_eq_done recorded
  · rename_i dropped
    rw [if_neg dropped]
    cases recorded
    rfl

/-- Where a reference leads does not depend on the references so far, and adds none to them. -/
theorem references_follow (decoder : Decoder) (state : Analysis) (reference : Reference)
    (target : Address) :
    (follow decoder state reference target).state.references = state.references := by
  let guise : Guise := ⟨state.settings, fun _ => state.references, id, id⟩
  have suits : guise.Suits state.settings := ⟨rfl, fun _ _ => rfl, fun _ _ => rfl⟩
  exact congrArg (·.state.references) (follow_recast suits rfl decoder reference target)

end Analysis

/-! Where nothing but the settings changes, recording and reading slots are the same, too. -/

def Analysis.under (state : Analysis) (settings : Settings) : Analysis := { state with settings }

def Outcome.under (outcome : Outcome) (settings : Settings) : Outcome :=
  ⟨outcome.state.under settings, outcome.fault⟩

theorem Outcome.andThen_under {next : Analysis → Outcome} {settings : Settings}
    (kept : ∀ state, next (state.under settings) = (next state).under settings) (outcome : Outcome) :
    (outcome.under settings).andThen next = (outcome.andThen next).under settings :=
  @Outcome.andThen_recast next (.plain settings) kept outcome

namespace Analysis

def Visit.under (settings : Settings) : Visit → Visit
  | .refused state => .refused (state.under settings)
  | .left state stop exit => .left (state.under settings) stop exit
  | .passed state next stop => .passed (state.under settings) next stop
  | .failed state fault => .failed (state.under settings) fault

def Scanned.under (scanned : Scanned) (settings : Settings) : Scanned :=
  { scanned with state := scanned.state.under settings }

theorem splitAt_under (state : Analysis) (settings : Settings) (place : Place) :
    (state.under settings).splitAt place = (state.splitAt place).under settings :=
  splitAt_recast state (.plain settings) place

theorem record_under (state : Analysis) (settings : Settings) (reference : Reference) :
    (state.under settings).record reference = (state.record reference).under settings := by
  simp only [record, under]
  split <;> rfl

theorem closeBlock_under (scanned : Scanned) (settings : Settings) (start : Place) :
    closeBlock (scanned.under settings) start = (closeBlock scanned start).under settings :=
  closeBlock_recast (.plain settings) scanned start

theorem readSlot_under (state : Analysis) (settings : Settings) (reference : Reference) :
    (state.under settings).readSlot reference = (state.readSlot reference).under settings := by
  simp only [readSlot, under]
  split
  · rfl
  · split <;> rfl

/-- Other settings matter to a task as far as they matter to where it leads. -/
theorem process_under_of_follow {decoder : Decoder} {state : Analysis} {settings : Settings}
    {task : Task} (followed : ∀ target, task.reference.target = some target →
      follow decoder (state.under settings) task.reference target =
        (follow decoder state task.reference target).under settings) :
    process decoder (state.under settings) task = (process decoder state task).under settings := by
  have recorded (state : Analysis) : (if task.isRecorded then
        (state.under settings).record task.reference else .done (state.under settings)) =
      (if task.isRecorded then state.record task.reference else .done state).under settings := by
    split
    · exact record_under ..
    · rfl
  simp only [process, readSlot_under]
  split
  · rfl
  · rw [← Outcome.andThen_under recorded]
    split
    · rfl
    · rename_i target points
      rw [followed target points]

theorem visit_under {state : Analysis} {settings : Settings} (agrees : state.settings.Agrees settings)
    (decoder : Decoder) (image : Nat) (here : Address) (offset : Nat) :
    visit decoder (state.under settings) image here offset =
      (visit decoder state image here offset).under settings := by
  refine (visit_recast agrees.suits decoder image here offset).trans ?_
  cases visit decoder state image here offset <;> rfl

end Analysis

end RealMode
