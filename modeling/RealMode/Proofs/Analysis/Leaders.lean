import RealMode.Proofs.Analysis.Tiling

/-! Where blocks start.

A task that has been followed leaves a block at its target, or a place where no instruction can be
marked any more. In turn a block starts only where a task aims. So the blocks start exactly at the
instructions that recorded references reach. -/

set_option autoImplicit false

namespace RealMode.Analysis

/-- No instruction starts at a place, and none can be marked there. -/
structure Barred (decoder : Decoder) (program : Program) (place : Place) : Prop where
  idle : (program.marksAt place).startsCode = false
  refused : ∀ image, program.image? place.image = some image → ∀ ip instruction,
    decoder image place.offset ip = .ok instruction →
      image.isUnattributed place.offset instruction.stop = false

namespace Barred

variable {decoder : Decoder} {program later : Program} {place : Place}

theorem stop_eq (placed : decoder.Placed) (steady : decoder.Steady Instruction.length)
    {image other : Image} {offset : Nat} {ip otherIp : UInt16} {instruction read : Instruction}
    (same : image.blank = other.blank) (decoded : decoder image offset ip = .ok instruction)
    (decodedOther : decoder other offset otherIp = .ok read) : read.stop = instruction.stop := by
  obtain ⟨again, decodedAgain, length⟩ := steady.decodes same decoded otherIp
  obtain rfl := Except.ok.inj (decodedOther.symm.trans decodedAgain)
  rw [Instruction.stop, Instruction.stop, length, (placed _ _ _ _ decoded).1,
    (placed _ _ _ _ decodedOther).1]

/-- Bytes only become known, so a place where no instruction can be marked stays one. -/
theorem mono (barred : Barred decoder program place) (placed : decoder.Placed)
    (steady : decoder.Steady Instruction.length) (remarked : program.Remarked later)
    (idle : (later.marksAt place).startsCode = false) : Barred decoder later place := by
  refine ⟨idle, fun image found ip instruction decoded => ?_⟩
  obtain ⟨earlier, earlierFound, same⟩ := remarked.image_eq found
  obtain ⟨read, decodedEarlier, -⟩ := steady.decodes same decoded ip
  have refused := barred.refused earlier earlierFound ip read decodedEarlier
  rw [stop_eq placed steady same decoded decodedEarlier] at refused
  rw [Bool.eq_false_iff] at refused ⊢
  exact fun unattributed => refused (remarked.isUnattributed found earlierFound unattributed)

theorem of_known (placed : decoder.Placed) (known : (program.marksAt place).isUnknown = false)
    (idle : (program.marksAt place).startsCode = false) : Barred decoder program place := by
  refine ⟨idle, fun image found ip instruction decoded => ?_⟩
  rw [Bool.eq_false_iff]
  intro unattributed
  obtain ⟨free, -⟩ := free_of_decoded placed found decoded unattributed
  simp [free.unknown free.inRun_self] at known

theorem of_outside (regular : program.Regular) (placed : decoder.Placed)
    (outside : program.contains place = false) : Barred decoder program place := by
  refine ⟨by rw [regular.marksAt_of_outside outside]; rfl, fun image found ip instruction decoded => ?_⟩
  rw [Bool.eq_false_iff]
  intro unattributed
  obtain ⟨free, -⟩ := free_of_decoded placed found decoded unattributed
  simp [free.contains regular] at outside

theorem of_refusal {image : Image} {here : Address} {code : Diagnostic.Code} (placed : decoder.Placed)
    (steady : decoder.Steady Instruction.length)
    (idle : (program.marksAt place).startsCode = false)
    (found : program.image? place.image = some image)
    (refusal : Refusal decoder image here place.offset code) : Barred decoder program place := by
  refine ⟨idle, fun other otherFound ip instruction decoded => ?_⟩
  obtain rfl := Option.some.inj (found.symm.trans otherFound)
  -- A refusal is about one instruction pointer, but the decoder does not look at it.
  obtain ⟨read, decodedHere, -⟩ := steady.decodes rfl decoded here.offset
  cases refusal with
  | undecodable failed => cases failed.symm.trans decodedHere
  | overlap decodedThere overlap =>
      obtain rfl := Except.ok.inj (decodedThere.symm.trans decodedHere)
      rw [← stop_eq placed steady rfl decoded decodedHere, Bool.eq_false_iff]
      intro unattributed
      rw [overlapCode?_eq_none_iff.mpr unattributed] at overlap
      cases overlap

end Barred

section Settling

variable {decoder : Decoder} {origin : Program} {before after : Moment} {place : Place}

/-- Where an instruction starts after a step, it did before, or it could have been marked. -/
theorem ProgramChange.startsCode (change : ProgramChange decoder before after)
    (starts : (after.state.program.marksAt place).startsCode = true) :
    (before.state.program.marksAt place).startsCode = true ∨
      ∃ image ip instruction, before.state.program.image? place.image = some image ∧
        decoder image place.offset ip = .ok instruction ∧
        image.isUnattributed place.offset instruction.stop = true := by
  cases change with
  | none same =>
      rw [same] at starts
      exact .inl starts
  | code there found decoded unattributed free painted =>
      rw [painted, free.startsCode_paint, Bool.or_eq_true, decide_eq_true_eq] at starts
      refine starts.imp_right ?_
      rintro ⟨-, rfl⟩
      exact ⟨_, _, _, found, decoded, unattributed⟩
  | data free painted =>
      rw [painted, free.startsCode_paint] at starts
      exact .inl (by simpa using starts)

theorem Barred.step (barred : Barred decoder before.state.program place) (placed : decoder.Placed)
    (steady : decoder.Steady Instruction.length) (step : Step decoder before after) :
    Barred decoder after.state.program place := by
  refine barred.mono placed steady (step.remarked placed) ?_
  rw [Bool.eq_false_iff]
  intro starts
  rcases (step.program placed).startsCode starts with
    earlier | ⟨image, ip, instruction, found, decoded, unattributed⟩
  · simp [barred.idle] at earlier
  · simp [barred.refused image found ip instruction decoded] at unattributed

/-- A block starts at a place, or no instruction ever will. Places that were known at the origin
do not count. -/
def Settled (decoder : Decoder) (origin : Program) (state : Analysis) (place : Place) : Prop :=
  (origin.marksAt place).isUnknown = true →
    (∃ block ∈ state.blocks.blocks, block.first = place) ∨ Barred decoder state.program place

theorem Settled.step (settled : Settled decoder origin before.state place)
    (sound : Sound origin before) (regular : origin.Regular) (placed : decoder.Placed)
    (steady : decoder.Steady Instruction.length) (step : Step decoder before after) :
    Settled decoder origin after.state place := by
  intro unknown
  rcases settled unknown with starts | barred
  · exact .inl ((sound.blocks_step regular step).keeps_first starts)
  · exact .inr (barred.step placed steady step)

/-- What following a task leads to. The first instruction at its target is always tried, so that
either it is marked or no instruction can be marked there. -/
def Attempted (decoder : Decoder) (origin : Program) (state : Analysis) : Activity → Prop
  | .idle => True
  | .following _ => state.instructions < state.settings.maxInstructions
  | .scanning _ start _ offset => offset = start.offset →
      state.instructions < state.settings.maxInstructions ∧
        (state.program.marksAt start).isUnknown = true
  | .leaving _ start stop _ => stop = start.offset → Barred decoder state.program start
  | .settled task => ∀ place, Aims state.program task place → Settled decoder origin state place

theorem Aims.unique {program : Program} {task : Task} {start other : Place}
    (aims : Aims program task start) (also : Aims program task other) : other = start := by
  obtain ⟨target, points, reached⟩ := aims
  obtain ⟨otherTarget, otherPoints, otherReached⟩ := also
  obtain rfl := Option.some.inj (points.symm.trans otherPoints)
  exact Option.some.inj (otherReached.symm.trans reached)

theorem Aims.of_remarked {program later : Program} {task : Task} {start : Place}
    (aims : Aims later task start) (remarked : program.Remarked later) : Aims program task start := by
  obtain ⟨target, points, reached⟩ := aims
  exact ⟨target, points, (remarked.resolve target).symm.trans reached⟩

theorem Finding.barred {state : Analysis} {activity : Activity} {reference : Reference}
    {target : Address} {location : Option Address} {code : Diagnostic.Code}
    (finding : Finding state.program reference target location code)
    (sound : Sound origin ⟨state, activity⟩) (regular : origin.Regular) (placed : decoder.Placed)
    (reached : state.program.resolve target = some place)
    (unknown : (origin.marksAt place).isUnknown = true) : Barred decoder state.program place := by
  cases finding with
  | unresolved nowhere => cases nowhere.symm.trans reached
  | outside arrived out =>
      obtain rfl := Option.some.inj (arrived.symm.trans reached)
      exact .of_outside (sound.regular regular) placed out
  | data arrived inside data =>
      obtain rfl := Option.some.inj (arrived.symm.trans reached)
      refine .of_known placed ?_ (sound.owned.remarked.startsCode_of_isData unknown data)
      rw [Bool.eq_false_iff, ne_eq, Marks.isUnknown_iff]
      simp [data]
  | follower arrived inside code notLead =>
      obtain rfl := Option.some.inj (arrived.symm.trans reached)
      refine .of_known placed ?_ (by rw [Marks.startsCode, notLead, Bool.and_false])
      rw [Bool.eq_false_iff, ne_eq, Marks.isUnknown_iff]
      simp [code]

theorem first_of_splitAt {state : Analysis} {task : Task} {blocks : BlockIndex}
    (sound : Sound origin ⟨state, .following task⟩) (regular : origin.Regular)
    (starts : (state.program.marksAt place).startsCode = true)
    (done : state.splitAt place = .done { state with blocks })
    (unknown : (origin.marksAt place).isUnknown = true) :
    ∃ block ∈ blocks.blocks, block.first = place := by
  rcases sound.cut_cases regular starts done with ⟨rfl, first⟩ | ⟨block, sameImage, cut⟩
  · have gains : origin.Gains state.program .code place :=
      ⟨unknown, Marks.isCode_of_startsCode starts⟩
    obtain ⟨block, member, inside⟩ := ((sound.owned.code place).mp gains).resolve_right id
    exact ⟨block, member, first block member inside⟩
  · exact cut.exists_first_iff.mpr (.inl (by rw [sameImage]))

theorem Attempted.step (attempted : Attempted decoder origin before.state before.activity)
    (sound : Sound origin before) (regular : origin.Regular) (placed : decoder.Placed)
    (steady : decoder.Steady Instruction.length) (step : Step decoder before after) :
    Attempted decoder origin after.state after.activity := by
  have remarked := step.remarked placed
  cases step with
  | enter _ | derive _ _ _ _ | dismiss _ | consume _ | record _ | forget _ => trivial
  | take _ room => exact room
  | skip dynamic =>
      rintro place ⟨target, points, -⟩
      cases dynamic.symm.trans points
  | note points finding message =>
      rintro place ⟨target, alsoPoints, reached⟩ unknown
      obtain rfl := Option.some.inj (points.symm.trans alsoPoints)
      exact .inr (finding.barred sound regular placed reached unknown)
  | cut points reached starts done =>
      intro place aims unknown
      obtain rfl := Aims.unique ⟨_, points, reached⟩ (aims.of_remarked remarked)
      exact .inl (first_of_splitAt sound regular starts done unknown)
  | begin _ _ _ unknown => exact fun _ => ⟨attempted, unknown⟩
  -- There was room when the task was taken, so a scan is not exhausted before its first instruction.
  | exhaust spent => exact fun first => absurd (attempted first).1 (Nat.not_lt_of_le spent)
  | miss absent =>
      refine fun _ => .of_outside (sound.regular regular) placed ?_
      simp [Program.contains, absent]
  | refuse found refusal message =>
      intro first
      subst first
      exact .of_refusal placed steady (Marks.startsCode_of_unknown (attempted rfl).2) found refusal
  | advance _ found decoded unattributed =>
      obtain ⟨-, -, order⟩ := sound.located
      obtain ⟨free, behind⟩ := free_of_decoded placed found decoded unattributed
      have positive := free.1
      -- Wherever the scan stands now, it is behind the first instruction.
      unfold activityBehind
      split
      · exact fun first => absurd first (by omega)
      · split
        · exact fun first => absurd first (by omega)
        · exact fun first => absurd first (by omega)
  | close done =>
      intro place aims unknown
      obtain rfl := sound.located.1.unique (aims.of_remarked remarked)
      rcases sound.close_cases regular done with ⟨nothing, rfl⟩ | ⟨-, grown⟩
      · exact .inr (attempted nothing)
      · exact .inl (grown.exists_first_iff.mpr (.inl rfl))

theorem Attempted.steps {program : Program} {settings : Settings} {moment : Moment}
    (regular : program.Regular) (placed : decoder.Placed) (steady : decoder.Steady Instruction.length)
    (steps : Steps decoder ⟨.fresh program settings, .idle⟩ moment) :
    Attempted decoder program moment.state moment.activity := by
  induction steps with
  | refl => trivial
  | tail earlier step ih => exact ih.step (.steps regular placed earlier) regular placed steady step

end Settling

/-- A recorded reference has a target that resolves to a place. -/
def Referenced (state : Analysis) (place : Place) : Prop :=
  ∃ reference ∈ state.references.toList, ∃ target,
    reference.target = some target ∧ state.program.resolve target = some place

section Referenced

variable {decoder : Decoder} {before after : Moment} {place : Place}

theorem Referenced.step (referenced : Referenced before.state place) (placed : decoder.Placed)
    (step : Step decoder before after) : Referenced after.state place := by
  obtain ⟨reference, member, target, points, reached⟩ := referenced
  refine ⟨reference, ?_, target, points, ((step.remarked placed).resolve target).trans reached⟩
  cases step with
  | record _ =>
      rw [Graph.toList_add]
      exact List.mem_append_left _ member
  | _ => exact member

theorem Aims.referenced {task : Task} (aims : Aims before.state.program task place)
    (settled : before.activity = .settled task) (recorded : task.isRecorded = true)
    (step : Step decoder before after) : Referenced after.state place := by
  obtain ⟨target, points, reached⟩ := aims
  cases step with
  | record _ =>
      cases settled
      exact ⟨task.reference, by rw [Graph.toList_add]; simp, target, points, reached⟩
  | forget unrecorded =>
      cases settled
      simp [recorded] at unrecorded
  | _ => cases settled

theorem Referenced.cases (referenced : Referenced after.state place) (placed : decoder.Placed)
    (step : Step decoder before after) :
    Referenced before.state place ∨
      ∃ task, before.activity = .settled task ∧ Aims before.state.program task place := by
  obtain ⟨reference, member, target, points, reached⟩ := referenced
  rw [(step.remarked placed).resolve] at reached
  cases step with
  | @record state task _ =>
      rw [Graph.toList_add, List.mem_append, List.mem_singleton] at member
      rcases member with earlier | rfl
      · exact .inl ⟨reference, earlier, target, points, reached⟩
      · exact .inr ⟨task, rfl, target, points, reached⟩
  | _ => exact .inl ⟨reference, member, target, points, reached⟩

/-- A block that starts at a new place starts where the task in hand aims. -/
theorem BlockChange.first_cases {origin : Program} {block : Block}
    (change : BlockChange before after) (sound : Sound origin before)
    (member : block ∈ after.state.blocks.blocks) :
    (∃ earlier ∈ before.state.blocks.blocks, earlier.first = block.first) ∨
      ∃ task, after.activity = .settled task ∧ Aims after.state.program task block.first := by
  cases change with
  | none same => exact .inl ⟨block, same ▸ member, rfl⟩
  | @cut state task start whole blocks aims _ sameImage cut =>
      rcases cut.exists_first_iff.mp ⟨block, member, rfl⟩ with new | earlier
      · rw [sameImage] at new
        rw [new]
        exact .inr ⟨task, rfl, aims⟩
      · exact .inl earlier
  | @grow state task start stop exit blocks _ grown =>
      rcases grown.exists_first_iff.mp ⟨block, member, rfl⟩ with new | earlier
      · rw [new]
        exact .inr ⟨task, rfl, sound.located.1⟩
      · exact .inl earlier

end Referenced

/-- With both ways out of conditional jumps recorded, every task is going to be recorded. Blocks
start only where a recorded reference or the task just followed aims, and what recorded references
aim at is settled. -/
structure Led (decoder : Decoder) (origin : Program) (moment : Moment) : Prop where
  complete : moment.state.settings.recordFallThrough = true
  recorded : ∀ task, task ∈ moment.state.pending.toList ∨ moment.activity.task? = some task →
    task.isRecorded = true
  attempted : Attempted decoder origin moment.state moment.activity
  starts : ∀ block ∈ moment.state.blocks.blocks, Referenced moment.state block.first ∨
    ∃ task, moment.activity = .settled task ∧ Aims moment.state.program task block.first
  targets : ∀ place, Referenced moment.state place → Settled decoder origin moment.state place

namespace Led

variable {decoder : Decoder} {origin : Program} {before after : Moment}

theorem fresh (decoder : Decoder) (program : Program) {settings : Settings}
    (complete : settings.recordFallThrough = true) :
    Led decoder program ⟨.fresh program settings, .idle⟩ where
  complete := complete
  recorded task known := by
    rcases known with member | taken
    · simp [Analysis.fresh] at member
    · cases taken
  attempted := trivial
  starts block member := by simp [Analysis.fresh, BlockIndex.empty] at member
  targets place referenced := by
    obtain ⟨reference, member, -⟩ := referenced
    simp [Analysis.fresh] at member

theorem complete_step (led : Led decoder origin before) (step : Step decoder before after) :
    after.state.settings.recordFallThrough = true := by
  have complete := led.complete
  cases step <;> exact complete

theorem recorded_step (led : Led decoder origin before) (step : Step decoder before after) {task : Task}
    (known : task ∈ after.state.pending.toList ∨ after.activity.task? = some task) :
    task.isRecorded = true := by
  have recorded := led.recorded
  cases step with
  | enter entries =>
      rcases known with member | taken
      · rcases Queue.mem_enqueueAll.mp member with entered | earlier
        · obtain ⟨entry, -, rfl⟩ := List.mem_map.mp entered
          rfl
        · simp at earlier
      · cases taken
  | take next _ =>
      refine recorded task (.inl ?_)
      rw [Queue.toList_of_next? next, List.mem_cons]
      exact known.symm.imp_left fun taken => (Option.some.inj taken).symm
  | derive _ _ _ _ | dismiss _ | record _ | forget _ => exact recorded task (known.imp_right (by rintro ⟨⟩))
  | skip _ | note _ _ _ | cut _ _ _ _ | begin _ _ _ _ | exhaust _ | miss _ | refuse _ _ _ | close _ =>
      exact recorded task known
  | consume reads =>
      rcases known with member | taken
      · rcases Queue.mem_enqueueAll.mp member with added | earlier
        · rcases List.mem_cons.mp added with rfl | next
          · rfl
          · obtain ⟨reference, -, rfl⟩ := Option.map_eq_some_iff.mp (Option.mem_toList.mp next)
            rfl
        · exact recorded task (.inl earlier)
      · cases taken
  | advance _ _ _ _ =>
      rcases known with member | taken
      · rcases Queue.mem_enqueueAll.mp member with departs | earlier
        · exact (mem_departures departs).2 led.complete
        · exact recorded task (.inl earlier)
      · rw [task?_activityBehind] at taken
        exact recorded task (.inr taken)

theorem starts_step (led : Led decoder origin before) (sound : Sound origin before)
    (regular : origin.Regular) (placed : decoder.Placed) (step : Step decoder before after)
    {block : Block} (member : block ∈ after.state.blocks.blocks) :
    Referenced after.state block.first ∨
      ∃ task, after.activity = .settled task ∧ Aims after.state.program task block.first := by
  -- A block whose task was in hand before is reached by a reference now: the step recorded the task.
  rcases (sound.blocks_step regular step).first_cases sound member with ⟨earlier, known, same⟩ | aimed
  · rw [← same]
    rcases led.starts earlier known with referenced | ⟨task, settled, aims⟩
    · exact .inl (referenced.step placed step)
    · have recorded := led.recorded task (.inr (by rw [settled]; rfl))
      exact .inl (aims.referenced settled recorded step)
  · exact .inr aimed

theorem targets_step (led : Led decoder origin before) (sound : Sound origin before)
    (regular : origin.Regular) (placed : decoder.Placed)
    (steady : decoder.Steady Instruction.length) (step : Step decoder before after) {place : Place}
    (referenced : Referenced after.state place) : Settled decoder origin after.state place := by
  refine Settled.step ?_ sound regular placed steady step
  rcases referenced.cases placed step with earlier | ⟨task, settled, aims⟩
  · exact led.targets place earlier
  · have attempted := led.attempted
    rw [settled] at attempted
    exact attempted place aims

theorem step (led : Led decoder origin before) (sound : Sound origin before)
    (regular : origin.Regular) (placed : decoder.Placed)
    (steady : decoder.Steady Instruction.length) (step : Step decoder before after) :
    Led decoder origin after :=
  ⟨led.complete_step step, fun _ known => led.recorded_step step known,
    led.attempted.step sound regular placed steady step,
    fun _ member => led.starts_step sound regular placed step member,
    fun _ referenced => led.targets_step sound regular placed steady step referenced⟩

theorem steps {program : Program} {settings : Settings} {moment : Moment} (regular : program.Regular)
    (placed : decoder.Placed) (steady : decoder.Steady Instruction.length)
    (complete : settings.recordFallThrough = true)
    (steps : Steps decoder ⟨.fresh program settings, .idle⟩ moment) : Led decoder program moment := by
  induction steps with
  | refl => exact .fresh decoder program complete
  | tail earlier step ih =>
      exact ih.step (.steps regular placed earlier) regular placed steady step

end Led

/-- Of the bytes that were unknown, blocks start exactly at those that start an instruction and that
a recorded reference reaches. No such byte lies further inside a block, and no block starts without
a reference to it. -/
theorem findBlocks_starts_blocks_at_leaders {program : Program} {decoder : Decoder}
    (built : program.Built) (placed : decoder.Placed) (steady : decoder.Steady Instruction.length)
    (settings : Settings) (complete : settings.recordFallThrough = true)
    (entries : List EntryPoint) :
    let outcome := findBlocks decoder (.fresh program settings) entries
    outcome.fault = none ∧
    (∀ place, (program.marksAt place).isUnknown = true →
      ((∃ block ∈ outcome.state.blocks.blocks, block.first = place) ↔
        (outcome.state.program.marksAt place).startsCode = true ∧ Referenced outcome.state place)) ∧
    (∀ place, (outcome.state.program.marksAt place).startsCode = true →
      Referenced outcome.state place → ∀ block ∈ outcome.state.blocks.blocks,
        block.contains place = true → block.first = place) ∧
    ∀ block ∈ outcome.state.blocks.blocks, Referenced outcome.state block.first := by
  intro outcome
  have start : Reached decoder program settings (.fresh program settings) := .refl
  obtain ⟨faultless, reached⟩ := start.findBlocks built.regular placed entries
  have sound := reached.sound built.regular placed
  have tiled := Tiled.steps built.regular placed reached
  have led := Led.steps built.regular placed steady complete reached
  have referenced : ∀ block ∈ outcome.state.blocks.blocks, Referenced outcome.state block.first := by
    intro block member
    rcases led.starts block member with referenced | ⟨task, idle, -⟩
    · exact referenced
    · cases idle
  have leads : ∀ place, (program.marksAt place).isUnknown = true →
      (outcome.state.program.marksAt place).startsCode = true → Referenced outcome.state place →
        ∃ block ∈ outcome.state.blocks.blocks, block.first = place := by
    intro place unknown starts target
    refine (led.targets place target unknown).resolve_right fun barred => ?_
    cases starts.symm.trans barred.idle
  refine ⟨faultless, fun place unknown => ⟨?_, fun leader => leads place unknown leader.1 leader.2⟩,
    ?_, referenced⟩
  · rintro ⟨block, member, rfl⟩
    exact ⟨(tiled.blocks block member).startsCode_first, referenced block member⟩
  · intro place starts target block member inside
    -- Only bytes that were unknown lie in blocks, so another block starts at the byte.
    have unknown := ((sound.owned.code place).mpr (.inl ⟨block, member, inside⟩)).1
    obtain ⟨other, found, rfl⟩ := leads place unknown starts target
    exact congrArg Block.first (sound.owned.ordered.eq_of_contains member found inside
      (sound.owned.ordered.contains_first found))

/-- The jump through the table starts a block, which the conditional jump before it reaches. -/
theorem sample_findBlocks_leaders :
    let final := (findBlocks sampleDecoder (.fresh sample {}) [sampleEntry]).state
    sample.Built ∧ sampleDecoder.Placed ∧ sampleDecoder.Steady Instruction.length ∧
      (sample.marksAt ⟨0, 4⟩).isUnknown = true ∧
      (∃ block ∈ final.blocks.blocks, block.first = ⟨0, 4⟩) ∧
      (final.program.marksAt ⟨0, 4⟩).startsCode = true ∧ Referenced final ⟨0, 4⟩ := by
  intro final
  have steady : sampleDecoder.Steady Instruction.length :=
    (Script.decoder_steady sampleRows).comp Prod.fst
  have leaders :=
    findBlocks_starts_blocks_at_leaders sample_built sampleDecoder_placed steady {} rfl [sampleEntry]
  have starts : ∃ block ∈ final.blocks.blocks, block.first = ⟨0, 4⟩ := by decide +kernel
  have leader := (leaders.2.1 ⟨0, 4⟩ (by decide)).mp starts
  exact ⟨sample_built, sampleDecoder_placed, steady, by decide, starts, leader.1, leader.2⟩

end RealMode.Analysis
