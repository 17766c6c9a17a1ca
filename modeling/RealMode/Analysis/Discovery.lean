import RealMode.Analysis.Scan

/-! The search for blocks: following references from the entry points until none is left. -/

set_option autoImplicit false

namespace RealMode.Analysis

/-- Enters what a scan from `start` has found as a block. A scan that ran into a known
instruction first lets a block start there. -/
def closeBlock (scanned : Scanned) (start : Place) : Outcome :=
  match scanned.exit with
  | .error fault => ⟨scanned.state, some fault⟩
  | .ok exit =>
      let joined :=
        if exit = .fallThrough then scanned.state.splitAt ⟨start.image, scanned.stop⟩
        else .done scanned.state
      joined.andThen fun state =>
        if scanned.stop ≤ start.offset then .done state
        else state.addBlock ⟨start.image, start.offset, scanned.stop, exit⟩

/-- Looks at a place inside an image: scans unknown bytes, and lets a block start at a known
instruction. -/
def explore (decoder : Decoder) (state : Analysis) (target : Address) (start : Place) :
    Outcome :=
  let marks := state.program.marksAt start
  if marks.isData then
    .done (state.report (some target) .ranIntoData (state.program.addressText target ++ " is data"))
  else if marks.isCode then
    if marks.isLead then state.splitAt start
    else
      .done (state.report (some target) .ranIntoCode
        (state.program.addressText target ++ " is inside an instruction"))
  else
    let budget := state.settings.maxInstructions - state.instructions
    closeBlock (scan decoder start.image budget state target start.offset) start

/-- Goes where a reference points to. -/
def follow (decoder : Decoder) (state : Analysis) (reference : Reference) (target : Address) :
    Outcome :=
  let location := reference.source.or (some target)
  match state.program.resolve target with
  | none =>
      .done (state.report location .unresolvedTarget
        (state.program.addressText target ++ " does not resolve"))
  | some start =>
      if state.program.contains start then explore decoder state target start
      else
        .done (state.report location .outOfImage
          (state.program.addressText target ++ " resolves outside its image"))

/-- Whether the target of a reference has to be read from a table first. -/
def awaitsSlot (reference : Reference) : Bool :=
  reference.kind = .indexedJump && reference.target.isNone && reference.slot.isSome

/-- Reads a table slot, and puts its target and the following slot on the agenda. -/
def readSlot (state : Analysis) (reference : Reference) : Analysis :=
  match JumpTable.take state.program reference with
  | (.error _, program) => { state with program }
  | (.ok slot, program) =>
      let consumed : Analysis := { state with
        program := program
        slots := state.slots ++
          (reference.source.map fun jump => ⟨slot.place, slot.location, jump⟩).toList }
      let followed := consumed.enqueueRecorded slot.reference
      match slot.next with
      | none => followed
      | some next => followed.enqueueRecorded next

/-- Does one task. -/
def process (decoder : Decoder) (state : Analysis) (task : Task) : Outcome :=
  if awaitsSlot task.reference then .done (state.readSlot task.reference)
  else
    let followed : Outcome :=
      match task.reference.target with
      | none => .done state
      | some target => follow decoder state task.reference target
    followed.andThen fun state =>
      if task.isRecorded then state.record task.reference else .done state

/-- Does pending tasks, at most `budget` of them, until none is left or enough instructions
have been decoded. -/
def drain (decoder : Decoder) : (budget : Nat) → (state : Analysis) → Outcome
  | 0, state => .done state
  | budget + 1, state =>
      match state.pending.next? with
      | none => .done state
      | some (task, rest) =>
          if state.settings.maxInstructions ≤ state.instructions then .done state
          else
            let outcome := process decoder { state with pending := rest } task
            match outcome.fault with
            | none => drain decoder budget outcome.state
            | some _ => outcome

/-- Makes entry points the only pending tasks. -/
def enter (state : Analysis) (entries : List EntryPoint) : Analysis :=
  entries.foldl (fun state entry => state.enqueueRecorded (.toEntry entry.address))
    { state with entries := state.entries ++ entries, pending := .empty }

/-- Finds the blocks that can be reached from entry points. -/
def findBlocks (decoder : Decoder) (state : Analysis) (entries : List EntryPoint) : Outcome :=
  drain decoder state.settings.maxTasks (state.enter entries)

end RealMode.Analysis
