import Mathlib.Logic.Relation
import RealMode.Proofs.JumpTable

/-! The search for blocks as a machine that takes one small step after the other.

Between two steps the search has no task in hand, follows a task, scans instructions, leaves a scan
or is about to record a task. Every search is a sequence of such steps; one that a fault stops has
come to a moment at which the next step fails. Invariants of the search are proved step by step. -/

set_option autoImplicit false

namespace RealMode

namespace Flow

/-- Whether control runs on behind an instruction. -/
def runsOn : Flow → Bool
  | .next | .interrupt | .call _ => true
  | .jump _ | .conditionalJump | .ret | .halt => false

/-- Whether control never runs on behind an instruction. -/
def leaves : Flow → Bool
  | .jump _ | .ret | .halt => true
  | .next | .interrupt | .call _ | .conditionalJump => false

theorem leaves_of_runsOn {flow : Flow} (runs : flow.runsOn = true) : flow.leaves = false := by
  cases flow <;> first | rfl | cases runs

end Flow

namespace Outcome

theorem eq_done {outcome : Outcome} (faultless : outcome.fault = none) :
    outcome = .done outcome.state := by
  cases outcome
  simp_all [Outcome.done]

theorem andThen_eq_done {outcome : Outcome} {next : Analysis → Outcome} {after : Analysis}
    (done : outcome.andThen next = .done after) :
    ∃ middle, outcome = .done middle ∧ next middle = .done after := by
  obtain ⟨state, fault⟩ := outcome
  cases fault with
  | none => exact ⟨state, rfl, done⟩
  | some fault => cases done

end Outcome

/-- The flow of the last instruction of a block that ends in a given way. -/
def Block.Exit.Allows : Block.Exit → Flow → Prop
  | .terminated, flow => flow.leaves = true
  | .conditional, flow => flow = .conditionalJump
  | .fallThrough, flow => flow.runsOn = true
  | .incomplete, flow => flow.leaves = false

namespace Analysis

/-- What the search is doing between two of its steps. -/
inductive Activity where
  | idle
  /-- A task has been taken. -/
  | following (task : Task)
  /-- The bytes from `start` up to `offset` are marked. The next instruction is at `here`. -/
  | scanning (task : Task) (start : Place) (here : Address) (offset : Nat)
  /-- The bytes from `start` up to `stop` are marked and have to become a block. -/
  | leaving (task : Task) (start : Place) (stop : Nat) (exit : Block.Exit)
  /-- A task has been followed. -/
  | settled (task : Task)

structure Moment where
  state : Analysis
  activity : Activity

def branchTask (program : Program) (instruction : Instruction) (here : Address)
    (kind : Reference.Kind) : Task :=
  .recorded ⟨some here, program.branchTarget? instruction here, kind, none⟩

/-- The address behind an instruction, unless it wraps. -/
def following? (instruction : Instruction) (here : Address) : Option Address :=
  here.add? (UInt16.ofNat instruction.length)

/-- The tasks to which an instruction gives rise, in the order of their arrival. -/
def departures (state : Analysis) (instruction : Instruction) (here : Address) : List Task :=
  match instruction.flow with
  | .ret | .halt | .next | .interrupt => []
  | .call far => [branchTask state.program instruction here (if far then .farCall else .nearCall)]
  | .jump far =>
      match state.tableOf? instruction here far with
      | some slot => [.recorded (.indexed here slot)]
      | none => [branchTask state.program instruction here (if far then .farJump else .nearJump)]
  | .conditionalJump =>
      branchTask state.program instruction here .conditionalJump ::
        ((following? instruction here).map fun next =>
          ⟨⟨some here, some next, .conditionalJump, none⟩, state.settings.recordFallThrough⟩).toList

/-- Whether an instruction is a branch that has no static target and goes through no table. -/
def isDynamicBranch (state : Analysis) (instruction : Instruction) (here : Address) : Bool :=
  match instruction.flow with
  | .ret | .halt | .next | .interrupt => false
  | .call _ | .conditionalJump => (state.program.branchTarget? instruction here).isNone
  | .jump far =>
      (state.tableOf? instruction here far).isNone &&
        (state.program.branchTarget? instruction here).isNone

/-- Where control runs on behind an instruction, or the exit of the block that ends with it. -/
def onward (instruction : Instruction) (here : Address) : Except Block.Exit Address :=
  match instruction.flow, following? instruction here with
  | .ret, _ | .halt, _ | .jump _, _ => .error .terminated
  | .conditionalJump, some _ => .error .conditional
  | .call _, some next | .next, some next | .interrupt, some next => .ok next
  | _, none => .error .incomplete

theorem onward_eq_ok {instruction : Instruction} {here next : Address}
    (ahead : onward instruction here = .ok next) :
    instruction.flow.runsOn = true ∧ following? instruction here = some next := by
  unfold onward at ahead
  split at ahead <;> simp_all [Flow.runsOn]

theorem onward_eq_error {instruction : Instruction} {here : Address} {exit : Block.Exit}
    (ended : onward instruction here = .error exit) :
    exit.Allows instruction.flow ∧ exit ≠ .fallThrough := by
  unfold onward at ended
  split at ended <;> cases ended <;> simp_all [Block.Exit.Allows, Flow.leaves]
  -- The address wraps: only a flow that never runs on is an exit of its own.
  cases flow : instruction.flow <;> simp_all

/-- Whether control would run on behind an instruction at an address that wraps. -/
def wraps (instruction : Instruction) (here : Address) : Bool :=
  match instruction.flow with
  | .ret | .halt | .jump _ => false
  | .call _ | .conditionalJump | .next | .interrupt => (following? instruction here).isNone

def remarks (state : Analysis) (instruction : Instruction) (here : Address) : List Diagnostic :=
  (if state.isDynamicBranch instruction here then
    [Diagnostic.found (some here) .dynamicTarget instruction.body]
  else []) ++
  (if wraps instruction here then
    [Diagnostic.found (some here) .addressWrapped ("address after " ++ instruction.body ++ " wraps")]
  else [])

def departed (state : Analysis) (instruction : Instruction) (here : Address) : Analysis :=
  { state with
    pending := (state.departures instruction here).foldl Queue.enqueue state.pending
    diagnostics := state.diagnostics ++ state.remarks instruction here }

theorem branch_eq (state : Analysis) (instruction : Instruction) (here : Address)
    (kind : Reference.Kind) :
    state.branch instruction here kind =
      { state with
        pending := state.pending.enqueue (branchTask state.program instruction here kind)
        diagnostics := state.diagnostics ++
          if (state.program.branchTarget? instruction here).isNone then
            [Diagnostic.found (some here) .dynamicTarget instruction.body]
          else [] } := by
  unfold branch branchTask
  cases state.program.branchTarget? instruction here with
  | none => rfl
  | some target => simp [enqueueRecorded, enqueue]

/-- The tasks of an instruction, its findings and the way on are all that follows from it. -/
theorem depart_eq (state : Analysis) (instruction : Instruction) (here : Address) :
    state.depart instruction here =
      match onward instruction here with
      | .error exit => .left (state.departed instruction here) instruction.stop exit
      | .ok next => .passed (state.departed instruction here) next instruction.stop := by
  have behind : here.add? (UInt16.ofNat instruction.length) = following? instruction here := rfl
  unfold depart departed onward remarks departures isDynamicBranch wraps
  rw [behind]
  -- Only a flow that runs on looks at the address behind the instruction.
  cases flow : instruction.flow with
  | ret => simp
  | halt => simp
  | jump far =>
      simp only [jump, branch_eq]
      rcases (state.tableOf? instruction here far).eq_none_or_eq_some with table | ⟨slot, table⟩ <;>
        simp [table, enqueueRecorded, enqueue]
  | next => cases following? instruction here <;> simp [proceed, reportWrapped, report]
  | interrupt => cases following? instruction here <;> simp [proceed, reportWrapped, report]
  | call far =>
      cases following? instruction here <;>
        simp [proceed, reportWrapped, report, call, branch_eq]
  | conditionalJump =>
      cases following? instruction here <;>
        simp [reportWrapped, report, conditional, branch_eq, enqueue]

def entryTasks (entries : List EntryPoint) : List Task :=
  entries.map fun entry => .recorded (.toEntry entry.address)

theorem enter_eq (state : Analysis) (entries : List EntryPoint) :
    state.enter entries =
      { state with
        entries := state.entries ++ entries
        pending := (entryTasks entries).foldl Queue.enqueue .empty } := by
  have queued (later : List EntryPoint) (state : Analysis) :
      later.foldl (fun state entry => state.enqueueRecorded (.toEntry entry.address)) state =
        { state with pending := (entryTasks later).foldl Queue.enqueue state.pending } := by
    induction later generalizing state with
    | nil => rfl
    | cons entry rest ih =>
        rw [List.foldl_cons, ih]
        rfl
  rw [enter, queued]

theorem record_eq_done {state after : Analysis} {reference : Reference}
    (done : state.record reference = .done after) :
    after = { state with references := state.references.add reference } := by
  unfold record ReferenceGraph.enter at done
  split at done
  · rename_i references entered
    split at entered
    · cases entered
      cases done
      rfl
    · cases entered
  · cases done

theorem splitAt_eq_done {state after : Analysis} {place : Place}
    (done : state.splitAt place = .done after) : ∃ blocks, after = { state with blocks } := by
  unfold splitAt at done
  split at done
  · split at done
    · cases done
      exact ⟨state.blocks, rfl⟩
    · split at done
      · cases done
        exact ⟨_, rfl⟩
      · cases done
  · cases done
    exact ⟨state.blocks, rfl⟩

theorem addBlock_eq_done {state after : Analysis} {block : Block}
    (done : state.addBlock block = .done after) : ∃ blocks, after = { state with blocks } := by
  unfold addBlock at done
  split at done
  · cases done
    exact ⟨_, rfl⟩
  · cases done

theorem closeBlock_eq_done {state after : Analysis} {start : Place} {stop : Nat} {exit : Block.Exit}
    (done : closeBlock ⟨state, stop, .ok exit⟩ start = .done after) :
    ∃ blocks, after = { state with blocks } := by
  unfold closeBlock at done
  obtain ⟨joined, joinedDone, done⟩ := Outcome.andThen_eq_done done
  have joinedBlocks : ∃ blocks, joined = { state with blocks } := by
    split at joinedDone
    · exact splitAt_eq_done joinedDone
    · cases joinedDone
      exact ⟨state.blocks, rfl⟩
  obtain ⟨blocks, rfl⟩ := joinedBlocks
  split at done
  · cases done
    exact ⟨blocks, rfl⟩
  · obtain ⟨others, rfl⟩ := addBlock_eq_done done
    exact ⟨others, rfl⟩

/-- A reference with a target does not wait for one. -/
theorem ready_of_target {task : Task} {target : Address}
    (points : task.reference.target = some target) : awaitsSlot task.reference = false := by
  simp [awaitsSlot, points]

/-- Where a scan stands behind an instruction that has been marked. -/
def activityBehind (program : Program) (task : Task) (start : Place) (instruction : Instruction)
    (here : Address) : Activity :=
  match onward instruction here with
  | .error exit => .leaving task start instruction.stop exit
  | .ok next =>
      if (program.marksAt ⟨start.image, instruction.stop⟩).startsCode then
        .leaving task start instruction.stop .fallThrough
      else
        .scanning task start next instruction.stop

/-- Why the target of a reference is not scanned, with the location and the code of the finding. -/
inductive Finding (program : Program) (reference : Reference) (target : Address) :
    Option Address → Diagnostic.Code → Prop where
  | unresolved (nowhere : program.resolve target = none) :
      Finding program reference target (reference.source.or (some target)) .unresolvedTarget
  | outside {start : Place} (reached : program.resolve target = some start)
      (out : program.contains start = false) :
      Finding program reference target (reference.source.or (some target)) .outOfImage
  | data {start : Place} (reached : program.resolve target = some start)
      (inside : program.contains start = true) (data : (program.marksAt start).isData = true) :
      Finding program reference target (some target) .ranIntoData
  | follower {start : Place} (reached : program.resolve target = some start)
      (inside : program.contains start = true) (code : (program.marksAt start).isCode = true)
      (notLead : (program.marksAt start).isLead = false) :
      Finding program reference target (some target) .ranIntoCode

/-- Why no instruction can be marked at an offset, with the code of the finding. -/
inductive Refusal (decoder : Decoder) (image : Image) (here : Address) (offset : Nat) :
    Diagnostic.Code → Prop where
  | undecodable {error : DecodeError} (failed : decoder image offset here.offset = .error error) :
      Refusal decoder image here offset (decodeCode error)
  | overlap {instruction : Instruction} {code : Diagnostic.Code}
      (decoded : decoder image offset here.offset = .ok instruction)
      (overlap : overlapCode? image offset instruction.stop = some code) :
      Refusal decoder image here offset code

/-- One step of the search, or of a phase that derives results from what has been found. -/
inductive Step (decoder : Decoder) : Moment → Moment → Prop where
  -- Without a task in hand.
  | enter {state : Analysis} (entries : List EntryPoint) :
      Step decoder ⟨state, .idle⟩ ⟨{ state with
        entries := state.entries ++ entries
        pending := (entryTasks entries).foldl Queue.enqueue .empty }, .idle⟩
  | derive {state : Analysis} (procedures : ProcedureTable) (flow : FlowGraph)
      (items : List DataItem) (findings : List Diagnostic) :
      Step decoder ⟨state, .idle⟩ ⟨{ state with
        procedures, flow, items, diagnostics := state.diagnostics ++ findings }, .idle⟩
  | take {state : Analysis} {task : Task} {rest : Agenda}
      (next : state.pending.next? = some (task, rest))
      (room : state.instructions < state.settings.maxInstructions) :
      Step decoder ⟨state, .idle⟩ ⟨{ state with pending := rest }, .following task⟩
  -- A task is followed. One that waits for a slot ends here, whether the slot is read or not.
  | dismiss {state : Analysis} {task : Task} (awaits : awaitsSlot task.reference = true)
      (refuses : JumpTable.Refuses state.program task.reference) :
      Step decoder ⟨state, .following task⟩ ⟨state, .idle⟩
  | consume {state : Analysis} {task : Task} {source : Address} {slot : JumpTable.Slot}
      (reads : JumpTable.Reads state.program task.reference source slot) :
      Step decoder ⟨state, .following task⟩ ⟨state.consumed source slot, .idle⟩
  | skip {state : Analysis} {task : Task} (dynamic : task.reference.target = none)
      (ready : awaitsSlot task.reference = false) :
      Step decoder ⟨state, .following task⟩ ⟨state, .settled task⟩
  | note {state : Analysis} {task : Task} {target : Address} {location : Option Address}
      {code : Diagnostic.Code} (points : task.reference.target = some target)
      (finding : Finding state.program task.reference target location code) (message : String) :
      Step decoder ⟨state, .following task⟩ ⟨state.report location code message, .settled task⟩
  | cut {state : Analysis} {task : Task} {target : Address} {start : Place} {blocks : BlockIndex}
      (points : task.reference.target = some target)
      (reached : state.program.resolve target = some start)
      (starts : (state.program.marksAt start).startsCode = true)
      (done : state.splitAt start = .done { state with blocks }) :
      Step decoder ⟨state, .following task⟩ ⟨{ state with blocks }, .settled task⟩
  | begin {state : Analysis} {task : Task} {target : Address} {start : Place}
      (points : task.reference.target = some target)
      (reached : state.program.resolve target = some start)
      (inside : state.program.contains start = true)
      (unknown : (state.program.marksAt start).isUnknown = true) :
      Step decoder ⟨state, .following task⟩ ⟨state, .scanning task start target start.offset⟩
  -- A scan stops before an instruction, or marks it and goes on behind it.
  | exhaust {state : Analysis} {task : Task} {start : Place} {here : Address} {offset : Nat}
      (spent : state.settings.maxInstructions ≤ state.instructions) :
      Step decoder ⟨state, .scanning task start here offset⟩
        ⟨state, .leaving task start offset .incomplete⟩
  | miss {state : Analysis} {task : Task} {start : Place} {here : Address} {offset : Nat}
      (absent : state.program.image? start.image = none) :
      Step decoder ⟨state, .scanning task start here offset⟩
        ⟨state, .leaving task start offset .incomplete⟩
  | refuse {state : Analysis} {task : Task} {start : Place} {here : Address} {offset : Nat}
      {image : Image} {code : Diagnostic.Code}
      (found : state.program.image? start.image = some image)
      (refusal : Refusal decoder image here offset code) (message : String) :
      Step decoder ⟨state, .scanning task start here offset⟩
        ⟨state.report (some here) code message, .leaving task start offset .incomplete⟩
  | advance {state : Analysis} {task : Task} {start : Place} {here : Address} {offset : Nat}
      {image : Image} {instruction : Instruction}
      (room : state.instructions < state.settings.maxInstructions)
      (found : state.program.image? start.image = some image)
      (decoded : decoder image offset here.offset = .ok instruction)
      (unattributed : image.isUnattributed offset instruction.stop = true) :
      Step decoder ⟨state, .scanning task start here offset⟩
        ⟨(state.markInstruction start.image offset instruction.length).departed instruction here,
          activityBehind (state.program.paint .code ⟨start.image, offset⟩ instruction.length) task
            start instruction here⟩
  -- A scan is left, and its task recorded.
  | close {state : Analysis} {task : Task} {start : Place} {stop : Nat} {exit : Block.Exit}
      {blocks : BlockIndex}
      (done : closeBlock ⟨state, stop, .ok exit⟩ start = .done { state with blocks }) :
      Step decoder ⟨state, .leaving task start stop exit⟩ ⟨{ state with blocks }, .settled task⟩
  | record {state : Analysis} {task : Task} (recorded : task.isRecorded = true) :
      Step decoder ⟨state, .settled task⟩
        ⟨{ state with references := state.references.add task.reference }, .idle⟩
  | forget {state : Analysis} {task : Task} (unrecorded : task.isRecorded = false) :
      Step decoder ⟨state, .settled task⟩ ⟨state, .idle⟩

/-- The next step fails. -/
inductive Stuck (decoder : Decoder) : Moment → Fault → Prop where
  | cut {state : Analysis} {task : Task} {start : Place} {fault : Fault}
      (starts : (state.program.marksAt start).startsCode = true)
      (failed : (state.splitAt start).fault = some fault) :
      Stuck decoder ⟨state, .following task⟩ fault
  | advance {state : Analysis} {task : Task} {start : Place} {here : Address} {offset : Nat}
      {image : Image} {instruction : Instruction} {fault : Fault}
      (found : state.program.image? start.image = some image)
      (decoded : decoder image offset here.offset = .ok instruction)
      (unattributed : image.isUnattributed offset instruction.stop = true)
      (failed : image.markFault? offset instruction.length = some fault) :
      Stuck decoder ⟨state, .scanning task start here offset⟩ fault
  | close {state : Analysis} {task : Task} {start : Place} {stop : Nat} {exit : Block.Exit}
      {fault : Fault} (failed : (closeBlock ⟨state, stop, .ok exit⟩ start).fault = some fault) :
      Stuck decoder ⟨state, .leaving task start stop exit⟩ fault
  | record {state : Analysis} {task : Task} {fault : Fault}
      (failed : (state.record task.reference).fault = some fault) :
      Stuck decoder ⟨state, .settled task⟩ fault

def Steps (decoder : Decoder) : Moment → Moment → Prop :=
  Relation.ReflTransGen (Step decoder)

/-- A step of the search itself: all steps but those between two calls have a task in hand. -/
def Works (decoder : Decoder) (before after : Moment) : Prop :=
  Step decoder before after ∧ ¬(before.activity = .idle ∧ after.activity = .idle)

/-- A search goes on from one moment to another and is not called again in between. -/
def Proceeds (decoder : Decoder) : Moment → Moment → Prop :=
  Relation.ReflTransGen (Works decoder)

theorem Step.works {decoder : Decoder} {before after : Moment} (step : Step decoder before after)
    (busy : ¬(before.activity = .idle ∧ after.activity = .idle) := by simp) :
    Works decoder before after :=
  ⟨step, busy⟩

theorem Proceeds.steps {decoder : Decoder} {before after : Moment}
    (proceeds : Proceeds decoder before after) : Steps decoder before after :=
  Relation.ReflTransGen.mono (fun _ _ (works : Works decoder _ _) => works.1) _ _ proceeds

/-- A step with a task in hand. -/
def Pursues (decoder : Decoder) (before after : Moment) : Prop :=
  Step decoder before after ∧ before.activity ≠ .idle

theorem Step.pursues {decoder : Decoder} {before after : Moment} (step : Step decoder before after)
    (busy : before.activity ≠ .idle := by simp) : Pursues decoder before after :=
  ⟨step, busy⟩

theorem Pursues.works {decoder : Decoder} {before after : Moment}
    (pursues : Pursues decoder before after) : Works decoder before after :=
  ⟨pursues.1, fun idle => pursues.2 idle.1⟩

/-- Steps of one sort lead to the state in which a phase ends, or to the fault that stops it. -/
def Leads (sort : Decoder → Moment → Moment → Prop) (decoder : Decoder) (moment : Moment)
    (outcome : Outcome) (activity : Activity) : Prop :=
  match outcome.fault with
  | none => Relation.ReflTransGen (sort decoder) moment ⟨outcome.state, activity⟩
  | some fault => ∃ last, Relation.ReflTransGen (sort decoder) moment last ∧ Stuck decoder last fault

section Simulation

variable {decoder : Decoder} {sort : Decoder → Moment → Moment → Prop}

theorem Leads.done {moment : Moment} {state : Analysis} {activity : Activity}
    (steps : Relation.ReflTransGen (sort decoder) moment ⟨state, activity⟩) :
    Leads sort decoder moment (.done state) activity := steps

theorem Leads.single {moment : Moment} {outcome : Outcome} {activity : Activity}
    (steps : ∀ after, outcome = .done after → sort decoder moment ⟨after, activity⟩)
    (stuck : ∀ fault, outcome.fault = some fault → Stuck decoder moment fault) :
    Leads sort decoder moment outcome activity := by
  unfold Leads
  split
  · rename_i faultless
    exact .single (steps outcome.state (Outcome.eq_done faultless))
  · rename_i fault failed
    exact ⟨moment, .refl, stuck fault failed⟩

theorem Leads.after {first moment : Moment} {outcome : Outcome} {activity : Activity}
    (steps : Relation.ReflTransGen (sort decoder) first moment)
    (leads : Leads sort decoder moment outcome activity) :
    Leads sort decoder first outcome activity := by
  unfold Leads at leads ⊢
  split at leads
  · exact steps.trans leads
  · obtain ⟨last, others, stuck⟩ := leads
    exact ⟨last, steps.trans others, stuck⟩

theorem Leads.andThen {moment : Moment} {outcome : Outcome} {middle last : Activity}
    {next : Analysis → Outcome} (first : Leads sort decoder moment outcome middle)
    (second : ∀ state, Leads sort decoder ⟨state, middle⟩ (next state) last) :
    Leads sort decoder moment (outcome.andThen next) last := by
  unfold Outcome.andThen
  split
  · rename_i faultless
    simp only [Leads, faultless] at first
    exact (second outcome.state).after first
  · rename_i fault failed
    simp only [Leads, failed] at first ⊢
    exact first

theorem Leads.mono {coarser : Decoder → Moment → Moment → Prop} {moment : Moment} {outcome : Outcome}
    {activity : Activity} (leads : Leads sort decoder moment outcome activity)
    (included : ∀ before after, sort decoder before after → coarser decoder before after) :
    Leads coarser decoder moment outcome activity := by
  unfold Leads at leads ⊢
  split at leads
  · exact Relation.ReflTransGen.mono included _ _ leads
  · obtain ⟨last, steps, stuck⟩ := leads
    exact ⟨last, Relation.ReflTransGen.mono included _ _ steps, stuck⟩

theorem overlapCode?_eq_none_iff {image : Image} {start stop : Nat} :
    overlapCode? image start stop = none ↔ image.isUnattributed start stop = true := by
  unfold overlapCode?
  split
  · simp_all
  · split <;> simp_all

theorem closeBlock_leads (state : Analysis) (task : Task) (start : Place) (stop : Nat)
    (exit : Block.Exit) :
    Leads Pursues decoder ⟨state, .leaving task start stop exit⟩ (closeBlock ⟨state, stop, .ok exit⟩ start)
      (.settled task) := by
  -- A step names the blocks that it leaves, so a state that is done has to be of that form.
  refine .single (fun after done => ?_) (fun _ failed => .close failed)
  obtain ⟨blocks, rfl⟩ := closeBlock_eq_done done
  exact Step.pursues (.close done)

/-- A visit to an instruction is one step of a scan. -/
theorem visit_step {task : Task} {start : Place} {state : Analysis} {here : Address} {offset : Nat}
    (room : state.instructions < state.settings.maxInstructions) :
    match visit decoder state start.image here offset with
    | .refused after =>
        Step decoder ⟨state, .scanning task start here offset⟩
          ⟨after, .leaving task start offset .incomplete⟩
    | .left after stop exit =>
        Step decoder ⟨state, .scanning task start here offset⟩ ⟨after, .leaving task start stop exit⟩
    | .passed after next stop =>
        after.settings = state.settings ∧ after.instructions = state.instructions + 1 ∧
          Step decoder ⟨state, .scanning task start here offset⟩
            ⟨after, if (after.program.marksAt ⟨start.image, stop⟩).startsCode then
              .leaving task start stop .fallThrough else .scanning task start next stop⟩
    | .failed _ fault => Stuck decoder ⟨state, .scanning task start here offset⟩ fault := by
  unfold visit
  cases found : state.program.image? start.image with
  | none => exact .miss found
  | some image =>
      dsimp only
      cases decoded : decoder image offset here.offset with
      | error error => exact .refuse found (.undecodable decoded) _
      | ok instruction =>
          dsimp only
          cases overlap : overlapCode? image offset instruction.stop with
          | some code => exact .refuse found (.overlap decoded overlap) _
          | none =>
              have free := overlapCode?_eq_none_iff.mp overlap
              dsimp only
              cases failed : image.markFault? offset instruction.length with
              | some fault => exact .advance found decoded free failed
              | none =>
                  let after := (state.markInstruction start.image offset instruction.length).departed
                    instruction here
                  have step : Step decoder ⟨state, .scanning task start here offset⟩
                      ⟨after, activityBehind after.program task start instruction here⟩ :=
                    .advance room found decoded free
                  rw [activityBehind] at step
                  simp only [depart_eq]
                  cases way : onward instruction here with
                  | error exit =>
                      rw [way] at step
                      exact step
                  | ok next =>
                      rw [way] at step
                      exact ⟨rfl, rfl, step⟩

/-- The budget of a scan is the number of instructions that may still be decoded. -/
theorem scan_leads (task : Task) (start : Place) {budget : Nat} {state : Analysis} {here : Address}
    {offset : Nat} (exact : state.settings.maxInstructions - state.instructions = budget) :
    Leads Pursues decoder ⟨state, .scanning task start here offset⟩
      (closeBlock (scan decoder start.image budget state here offset) start) (.settled task) := by
  -- The budget and the instructions that have been decoded add up to the limit all along, so the
  -- budget is used up where the limit is reached.
  induction budget generalizing state here offset with
  | zero =>
      have spent : state.settings.maxInstructions ≤ state.instructions := by omega
      exact (closeBlock_leads ..).after (.single (Step.pursues (.exhaust spent)))
  | succ budget ih =>
      have room : state.instructions < state.settings.maxInstructions := by omega
      have step := @visit_step decoder task start state here offset room
      rw [scan]
      cases visited : visit decoder state start.image here offset with
      | refused after =>
          rw [visited] at step
          exact (closeBlock_leads ..).after (.single step.pursues)
      | left after stop exit =>
          rw [visited] at step
          exact (closeBlock_leads ..).after (.single step.pursues)
      | failed after fault =>
          rw [visited] at step
          exact ⟨_, .refl, step⟩
      | passed after next stop =>
          rw [visited] at step
          obtain ⟨settings, instructions, step⟩ := step
          dsimp only
          split
          · rename_i known
            rw [if_pos known] at step
            exact (closeBlock_leads ..).after (.single step.pursues)
          · rename_i unknown
            rw [if_neg unknown] at step
            refine (ih ?_).after (.single step.pursues)
            rw [settings, instructions]
            omega

theorem explore_leads {state : Analysis} {task : Task} {target : Address} {start : Place}
    (points : task.reference.target = some target)
    (reached : state.program.resolve target = some start)
    (inside : state.program.contains start = true) :
    Leads Pursues decoder ⟨state, .following task⟩ (explore decoder state target start) (.settled task) := by
  unfold explore
  dsimp only
  split
  · rename_i data
    exact .done (.single (Step.pursues (.note points (.data reached inside data) _)))
  · rename_i notData
    split
    · rename_i code
      split
      · rename_i lead
        have starts : (state.program.marksAt start).startsCode = true := by
          simp [Marks.startsCode, code, lead]
        refine .single (fun after done => ?_) (fun _ failed => .cut starts failed)
        obtain ⟨blocks, rfl⟩ := splitAt_eq_done done
        exact Step.pursues (.cut points reached starts done)
      · rename_i notLead
        exact .done (.single (Step.pursues (.note points
          (.follower reached inside code (Bool.eq_false_iff.mpr notLead)) _)))
    · rename_i notCode
      have unknown : (state.program.marksAt start).isUnknown = true :=
        Marks.isUnknown_iff.mpr ⟨Bool.eq_false_iff.mpr notCode, Bool.eq_false_iff.mpr notData⟩
      exact (scan_leads task start rfl).after
        (.single (Step.pursues (.begin points reached inside unknown)))

theorem follow_leads {state : Analysis} {task : Task} {target : Address}
    (points : task.reference.target = some target) :
    Leads Pursues decoder ⟨state, .following task⟩ (follow decoder state task.reference target)
      (.settled task) := by
  unfold follow
  dsimp only
  split
  · rename_i nowhere
    exact .done (.single (Step.pursues (.note points (.unresolved nowhere) _)))
  · rename_i start reached
    split
    · rename_i inside
      exact explore_leads points reached inside
    · rename_i outside
      have out := Bool.eq_false_iff.mpr outside
      exact .done (.single (Step.pursues (.note points (.outside reached out) _)))

theorem process_leads (state : Analysis) (task : Task) :
    Leads Pursues decoder ⟨state, .following task⟩ (process decoder state task) .idle := by
  unfold process
  split
  · rename_i awaits
    rcases state.readSlot_eq task.reference with ⟨refuses, same⟩ | ⟨source, slot, reads, consumed⟩
    · rw [same]
      exact .done (.single (Step.pursues (.dismiss awaits refuses)))
    · rw [consumed]
      exact .done (.single (Step.pursues (.consume reads)))
  -- A task is recorded after it has been followed, whatever came of that.
  · rename_i ready
    have recorded (followed : Analysis) : Leads Pursues decoder ⟨followed, .settled task⟩
        (if task.isRecorded then followed.record task.reference else .done followed) .idle := by
      split
      · rename_i recorded
        refine .single (fun after done => ?_) (fun _ failed => .record failed)
        rw [record_eq_done done]
        exact Step.pursues (.record recorded)
      · rename_i unrecorded
        have dropped := Bool.eq_false_iff.mpr unrecorded
        exact .done (.single (Step.pursues (.forget dropped)))
    cases points : task.reference.target with
    | none =>
        have skipped : Leads Pursues decoder ⟨state, .following task⟩ (.done state) (.settled task) :=
          .done (.single (Step.pursues (.skip points (Bool.eq_false_iff.mpr ready))))
        exact skipped.andThen recorded
    | some target => exact (follow_leads points).andThen recorded

theorem drain_leads (budget : Nat) (state : Analysis) :
    Leads Works decoder ⟨state, .idle⟩ (drain decoder budget state) .idle := by
  induction budget generalizing state with
  | zero => exact .done .refl
  | succ budget ih =>
      rw [drain]
      cases next : state.pending.next? with
      | none => exact .done .refl
      | some taken =>
          obtain ⟨task, rest⟩ := taken
          dsimp only
          split
          · exact .done .refl
          · rename_i room
            refine Leads.after (.single (Step.works (.take next (Nat.lt_of_not_le room)))) ?_
            exact ((process_leads _ task).mono fun _ _ => Pursues.works).andThen ih

/-- A search for blocks is a sequence of steps, once the entry points are its tasks. -/
theorem findBlocks_leads (state : Analysis) (entries : List EntryPoint) :
    Leads Works decoder ⟨state.enter entries, .idle⟩ (findBlocks decoder state entries) .idle :=
  drain_leads ..

theorem enter_step (state : Analysis) (entries : List EntryPoint) :
    Step decoder ⟨state, .idle⟩ ⟨state.enter entries, .idle⟩ :=
  state.enter_eq entries ▸ .enter entries

end Simulation

end Analysis

end RealMode
