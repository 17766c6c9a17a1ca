import RealMode.Proofs.Analysis.References
import RealMode.Proofs.Analysis.Survey

/-! What a search in one segment has found when it comes to its end.

All instructions that the entry points lead to have been read, unless one of them was in the way of
another. Blocks are made of what has been read, and their exits can be told from it. -/

set_option autoImplicit false

namespace RealMode.Analysis

/-- A search in one segment that has done all of its tasks without reaching a limit. -/
structure Complete (decoder : Decoder) (origin : Program) (settings : Settings)
    (entries : List EntryPoint) (readings : List Reading) (finished : List Task) (state : Analysis) :
    Prop where
  inside : InSegment decoder origin settings entries
  survey : Survey decoder origin settings entries readings finished ⟨state, .idle⟩
  drained : state.pending.toList = []
  room : state.instructions < settings.maxInstructions

/-- The entry points lead to the instruction of a reading. -/
structure Findable (decoder : Decoder) (origin : Program) (entries : List EntryPoint)
    (reading : Reading) : Prop where
  sought : Sought decoder origin entries reading.here
  decodes : Decodes decoder origin reading.here reading.instruction
  located : origin.resolve reading.here = some reading.place

/-- Either an instruction starts at a place, or none can and a finding says so. -/
def Decided (decoder : Decoder) (origin : Program) (state : Analysis) (place : Place) : Prop :=
  (state.program.marksAt place).startsCode = true ∨
    Barred decoder state.program place ∧ Denied origin state place

/-- No instruction to which the entry points lead has been kept out. -/
def Clear (decoder : Decoder) (origin : Program) (entries : List EntryPoint) (state : Analysis) :
    Prop :=
  ∀ reading, Findable decoder origin entries reading →
    Barred decoder state.program reading.place → ¬Denied origin state reading.place

/-- The exit of a block by its last instruction, where it is known whether another one starts
behind it. -/
def exitBehind (last : Instruction) (continued : Bool) : Block.Exit :=
  if last.flow.leaves then .terminated
  else if 65536 ≤ last.stop then .incomplete
  else if last.flow.runsOn then (if continued then .fallThrough else .incomplete)
  else .conditional

theorem Decodes.unique {decoder : Decoder} {program : Program} {address : Address}
    {instruction other : Instruction} (decodes : Decodes decoder program address instruction)
    (also : Decodes decoder program address other) : instruction = other := by
  obtain ⟨place, image, reached, -, found, decoded⟩ := decodes
  obtain ⟨otherPlace, otherImage, otherReached, -, otherFound, otherDecoded⟩ := also
  obtain rfl := Option.some.inj (reached.symm.trans otherReached)
  obtain rfl := Option.some.inj (found.symm.trans otherFound)
  exact Except.ok.inj (decoded.symm.trans otherDecoded)

theorem Findable.eq_of_place {decoder : Decoder} {origin : Program} {settings : Settings}
    {entries : List EntryPoint} (inside : InSegment decoder origin settings entries)
    {reading other : Reading} (findable : Findable decoder.pinned origin entries reading)
    (also : Findable decoder.pinned origin entries other) (same : reading.place = other.place) :
    reading = other := by
  have home := findable.sought.home inside.placed.pinned inside.stays.pinned inside.home
  have otherHome := also.sought.home inside.placed.pinned inside.stays.pinned inside.home
  have address : reading.here = other.here :=
    inside.flat.eq_of_resolve home otherHome (by rw [findable.located, also.located, same])
  obtain ⟨place, here, instruction⟩ := reading
  obtain ⟨otherPlace, otherHere, otherInstruction⟩ := other
  dsimp only at same address
  subst same address
  obtain rfl : instruction = otherInstruction := findable.decodes.unique also.decodes
  rfl

theorem exists_branchTask {settings : Settings} {instruction : Instruction}
    (tables : settings.jumpTables = false) (branches : instruction.flow.branches = true)
    (program : Program) (here : Address) :
    ∃ kind, branchTask program instruction here kind ∈
      (fresh program settings).departures instruction here := by
  unfold departures
  cases flow : instruction.flow with
  | next | interrupt | ret | halt => simp [flow, Flow.branches] at branches
  | call far => exact ⟨_, List.mem_singleton.mpr rfl⟩
  | jump far =>
      have direct : (fresh program settings).tableOf? instruction here far = none := by
        simp [tableOf?, fresh, tables]
      simp only [direct]
      exact ⟨_, List.mem_singleton.mpr rfl⟩
  | conditionalJump => exact ⟨_, List.mem_cons_self⟩

theorem exists_onwardTask {program : Program} {settings : Settings} {instruction : Instruction}
    {here next : Address} (conditional : instruction.flow = .conditionalJump)
    (ahead : following? instruction here = some next) :
    ∃ task ∈ (fresh program settings).departures instruction here,
      task.reference.target = some next := by
  refine ⟨⟨⟨some here, some next, .conditionalJump, none⟩, settings.recordFallThrough⟩, ?_, rfl⟩
  simp [departures, conditional, ahead, fresh]

namespace Complete

variable {decoder : Decoder} {origin : Program} {settings : Settings} {entries : List EntryPoint}
  {readings : List Reading} {finished : List Task} {state : Analysis}
  (complete : Complete decoder origin settings entries readings finished state)

include complete

theorem sound : Sound origin ⟨state, .idle⟩ :=
  .steps complete.inside.regular complete.inside.placed.pinned complete.survey.steps

theorem tiled : Tiled decoder.pinned origin ⟨state, .idle⟩ :=
  .steps complete.inside.regular complete.inside.placed.pinned complete.survey.steps

theorem startsCode_iff {place : Place} :
    (state.program.marksAt place).startsCode = true ↔ ∃ reading ∈ readings, reading.place = place := by
  rw [complete.survey.ledger.marked, and_iff_right (complete.inside.flat.startsCode place)]

theorem findable {reading : Reading} (member : reading ∈ readings) :
    Findable decoder.pinned origin entries reading := by
  obtain ⟨located, inside, image, other, found, same, decoded⟩ := complete.survey.ledger.read _ member
  refine ⟨complete.survey.sought reading member, ⟨reading.place, image, located, inside, found, ?_⟩,
    located⟩
  rw [← complete.inside.blind.pinned other image _ _ same, decoded]

theorem home {reading : Reading} (member : reading ∈ readings) :
    reading.here.referent = .segment 0 :=
  (complete.findable member).sought.home complete.inside.placed.pinned complete.inside.stays.pinned
    complete.inside.home

theorem place_eq {reading : Reading} (member : reading ∈ readings) :
    reading.place = ⟨0, reading.here.offset.toNat⟩ := by
  have located := (complete.findable member).located
  rw [complete.inside.flat.resolve (complete.home member)] at located
  exact (Option.some.inj located).symm

theorem offset_lt {place : Place} (starts : (state.program.marksAt place).startsCode = true) :
    place.offset < 65536 := by
  obtain ⟨reading, member, rfl⟩ := complete.startsCode_iff.mp starts
  rw [complete.place_eq member]
  exact reading.here.offset.toNat_lt

theorem mem_of_startsCode {reading : Reading}
    (findable : Findable decoder.pinned origin entries reading)
    (starts : (state.program.marksAt reading.place).startsCode = true) : reading ∈ readings := by
  obtain ⟨other, member, same⟩ := complete.startsCode_iff.mp starts
  rwa [findable.eq_of_place complete.inside (complete.findable member) same.symm]

theorem reading_of_stands {image : Nat} {instruction : Instruction}
    (stands : Stands decoder.pinned state.program image instruction) :
    ∃ reading ∈ readings, reading.place = ⟨image, instruction.offset⟩ ∧
      reading.instruction = instruction := by
  have starts := (stands.startsCode_iff (Nat.le_refl _) stands.offset_lt_stop).mpr rfl
  obtain ⟨reading, member, place⟩ := complete.startsCode_iff.mp starts
  refine ⟨reading, member, place, ?_⟩
  obtain ⟨-, -, image, other, found, same, decoded⟩ := complete.survey.ledger.read _ member
  obtain ⟨⟨marked, standing, ip, markedFound, standingSame, standingDecoded⟩, -, -⟩ := stands
  rw [place] at found decoded
  obtain ⟨earlier, earlierFound, blank⟩ := complete.sound.owned.remarked.image_eq markedFound
  obtain rfl := Option.some.inj (found.symm.trans earlierFound)
  have alike : other.blank = standing.blank := same.trans (standingSame.trans blank).symm
  obtain ⟨read, readAgain, equal⟩ :=
    (complete.inside.blind.pinned_steady id).decodes alike decoded ip
  obtain rfl := Except.ok.inj (standingDecoded.symm.trans readAgain)
  exact equal.symm

/-- Instructions that share a byte are the same. -/
theorem eq_of_stands {image byte : Nat} {instruction other : Instruction}
    (stands : Stands decoder.pinned state.program image instruction)
    (also : Stands decoder.pinned state.program image other) (low : instruction.offset ≤ byte)
    (high : byte < instruction.stop) (otherLow : other.offset ≤ byte) (otherHigh : byte < other.stop) :
    other = instruction := by
  have offset := stands.offset_eq also low high otherLow otherHigh
  obtain ⟨reading, member, place, rfl⟩ := complete.reading_of_stands stands
  obtain ⟨second, secondMember, secondPlace, rfl⟩ := complete.reading_of_stands also
  rw [complete.survey.ledger.eq_of_place member secondMember (by rw [place, secondPlace, offset])]

theorem eq_of_stop {image : Nat} {instruction other : Instruction}
    (stands : Stands decoder.pinned state.program image instruction)
    (also : Stands decoder.pinned state.program image other) (stop : other.stop = instruction.stop) :
    other = instruction := by
  have filled := stands.offset_lt_stop
  have otherFilled := also.offset_lt_stop
  exact complete.eq_of_stands stands also (Nat.le_sub_one_of_lt filled) (by omega)
    (Nat.le_sub_one_of_lt (by omega)) (by omega)

theorem block_of_known {place : Place} (known : (state.program.marksAt place).isUnknown = false) :
    ∃ block ∈ state.blocks.blocks, block.contains place = true := by
  have sound := complete.sound
  have unknown := complete.inside.flat.unknown place
  obtain ⟨content, allowed, gains⟩ := sound.owned.remarked.gains_of_known unknown known
  cases content with
  | padding => exact absurd rfl allowed
  | code => exact ((sound.owned.code place).mp ((gains _).mpr rfl)).resolve_right id
  | data =>
      obtain ⟨slot, member, -⟩ := (sound.owned.data place).mp ((gains _).mpr rfl)
      rw [complete.survey.ledger.slots_eq_nil complete.inside.tables] at member
      cases member

/-- The instruction of a reading is one of those that make up the block around it. -/
theorem instruction_mem {reading : Reading} (member : reading ∈ readings) {image start stop : Nat}
    {instructions : List Instruction}
    (tiles : Tiles decoder.pinned state.program image start stop instructions)
    (sameImage : reading.place.image = image) (low : start ≤ reading.place.offset)
    (high : reading.place.offset < stop) :
    reading.instruction ∈ instructions ∧ reading.instruction.offset = reading.place.offset := by
  subst sameImage
  have starts := complete.startsCode_iff.mpr ⟨reading, member, rfl⟩
  obtain ⟨tile, tileMember, offset⟩ := (tiles.startsCode_iff low high).mp starts
  obtain ⟨other, otherMember, place, rfl⟩ :=
    complete.reading_of_stands (tiles.stand tile tileMember)
  obtain rfl := complete.survey.ledger.eq_of_place member otherMember (by rw [place, offset])
  exact ⟨tileMember, offset⟩

theorem block_of_reading {reading : Reading} (member : reading ∈ readings) :
    ∃ block ∈ state.blocks.blocks, block.contains reading.place = true := by
  have starts := complete.startsCode_iff.mpr ⟨reading, member, rfl⟩
  exact complete.block_of_known (Marks.isUnknown_of_isCode (Marks.isCode_of_startsCode starts))

theorem stands_of_reading {reading : Reading} (member : reading ∈ readings) :
    Stands decoder.pinned state.program reading.place.image reading.instruction ∧
      reading.instruction.offset = reading.place.offset := by
  obtain ⟨block, blockMember, inside⟩ := complete.block_of_reading member
  obtain ⟨sameImage, low, high⟩ := Block.contains_iff.mp inside
  obtain ⟨leading, last, tiles, -⟩ := complete.tiled.blocks block blockMember
  obtain ⟨tile, offset⟩ := complete.instruction_mem member tiles sameImage low high
  exact ⟨sameImage ▸ tiles.stand _ tile, offset⟩

theorem stands_in {block : Block} {reading : Reading} (read : reading ∈ readings)
    (within : block.contains reading.place = true) :
    Stands decoder.pinned state.program block.image reading.instruction :=
  (Block.contains_iff.mp within).1 ▸ (complete.stands_of_reading read).1

/-- A block ends with an instruction that has been read. -/
theorem exists_last {block : Block} (member : block ∈ state.blocks.blocks) :
    ∃ reading ∈ readings, block.contains reading.place = true ∧
      reading.instruction.stop = block.stop := by
  obtain ⟨leading, last, tiles, -⟩ := complete.tiled.blocks block member
  obtain ⟨reading, read, place, rfl⟩ := complete.reading_of_stands (tiles.stand last (by simp))
  have stop := laid_last tiles.laid
  have filled := (tiles.stand reading.instruction (by simp)).offset_lt_stop
  have start : block.start ≤ reading.instruction.offset := by
    obtain ⟨middle, front, back⟩ := tiles_append.mp tiles
    rw [back.laid.1]
    exact front.start_le_stop
  refine ⟨reading, read, ?_, stop⟩
  rw [place]
  exact Block.contains_iff.mpr ⟨rfl, start, stop ▸ filled⟩

theorem allows_of_stop {block : Block} (member : block ∈ state.blocks.blocks) {reading : Reading}
    (read : reading ∈ readings) (within : block.contains reading.place = true)
    (ends : reading.instruction.stop = block.stop) : block.exit.Allows reading.instruction.flow := by
  obtain ⟨leading, last, tiles, -, allows⟩ := complete.tiled.blocks block member
  have same : last = reading.instruction :=
    complete.eq_of_stop (complete.stands_in read within) (tiles.stand last (by simp))
      ((laid_last tiles.laid).trans ends.symm)
  exact same ▸ allows

/-- Behind an instruction that is not the last of its block, control runs on to the next one. -/
theorem runs_behind {block : Block} (member : block ∈ state.blocks.blocks) {reading : Reading}
    (read : reading ∈ readings) (within : block.contains reading.place = true)
    (before : reading.instruction.stop ≠ block.stop) :
    reading.instruction.flow.runsOn = true ∧
      (state.program.marksAt ⟨block.image, reading.instruction.stop⟩).startsCode = true := by
  obtain ⟨sameImage, low, high⟩ := Block.contains_iff.mp within
  obtain ⟨leading, last, tiles, ahead, -⟩ := complete.tiled.blocks block member
  obtain ⟨tile, -⟩ := complete.instruction_mem read tiles sameImage low high
  constructor
  · rcases List.mem_append.mp tile with earlier | final
    · exact ahead _ earlier
    · rw [List.mem_singleton.mp final] at before
      exact absurd (laid_last tiles.laid) before
  · obtain ⟨next, nextMember, adjoins⟩ := (tiles.laid.stop_cases tile).resolve_left before
    have stands := tiles.stand next nextMember
    rw [← adjoins]
    exact (stands.startsCode_iff (Nat.le_refl _) stands.offset_lt_stop).mpr rfl

/-- The bytes of an instruction lie in its image. -/
theorem stop_le_size {reading : Reading} (member : reading ∈ readings) {image : Image}
    (found : state.program.image? reading.place.image = some image) :
    reading.instruction.stop ≤ image.size := by
  obtain ⟨stands, -⟩ := complete.stands_of_reading member
  have filled := stands.offset_lt_stop
  by_contra beyond
  let last : Place := ⟨reading.place.image, reading.instruction.stop - 1⟩
  have outside : state.program.contains last = false := by
    simp only [Program.contains, last, found, Image.contains, decide_eq_false_iff_not]
    omega
  have known : (state.program.marksAt last).isUnknown = false := by
    rw [stands.marks _ (Nat.le_sub_one_of_lt filled) (by omega), Marks.isUnknown_inRun]
  rw [(complete.sound.regular complete.inside.regular).marksAt_of_outside outside] at known
  cases known

theorem mem_finished_iff {task : Task} :
    task ∈ finished ↔ task ∈ raised origin settings entries readings [] := by
  have account := complete.survey.ledger.account
  rw [complete.survey.ledger.slots_eq_nil complete.inside.tables] at account
  simpa [Activity.task?, complete.drained] using account.mem_iff

theorem decided_of_task {task : Task} (done : task ∈ finished) {target : Address} {place : Place}
    (points : task.reference.target = some target) (reached : origin.resolve target = some place)
    (inside : origin.contains place = true) : Decided decoder.pinned origin state place := by
  have remarked := complete.sound.owned.remarked
  have unknown := complete.inside.flat.unknown place
  have reachedNow := (remarked.resolve target).trans reached
  obtain ⟨answered, settled⟩ := complete.survey.followed task done target points
  have ofBlock (starts : ∃ block ∈ state.blocks.blocks, block.first = place) :
      (state.program.marksAt place).startsCode = true := by
    obtain ⟨block, member, rfl⟩ := starts
    exact (complete.tiled.blocks block member).startsCode_first
  rcases settled place reachedNow unknown with starts | barred
  · exact .inl (ofBlock starts)
  · rcases answered.inside place reachedNow ((remarked.contains place).trans inside) with
      starts | ⟨code, obstacle, reports⟩ | code
    · exact .inl (ofBlock starts)
    · exact .inr ⟨barred, target, reached, code, obstacle, reports⟩
    · simp [Marks.isUnknown_of_isCode code] at unknown

/-- A block that falls through has another one behind it. -/
theorem exists_behind {block : Block} (member : block ∈ state.blocks.blocks)
    (falls : block.exit = .fallThrough) :
    ∃ next ∈ state.blocks.blocks, next.first = block.behind := by
  refine (complete.tiled.continued block member falls).resolve_right fun code => ?_
  have unknown := complete.inside.flat.unknown block.behind
  simp [Marks.isUnknown_of_isCode code] at unknown

theorem startsCode_behind {block : Block} (member : block ∈ state.blocks.blocks)
    (falls : block.exit = .fallThrough) :
    (state.program.marksAt block.behind).startsCode = true := by
  obtain ⟨next, nextMember, adjoins⟩ := complete.exists_behind member falls
  exact adjoins ▸ (complete.tiled.blocks next nextMember).startsCode_first

/-- A block is incomplete where addresses wrap, or where no instruction can be marked behind it. -/
theorem wraps_or_barred {block : Block} (member : block ∈ state.blocks.blocks)
    (cut : block.exit = .incomplete) :
    65536 ≤ block.stop ∨
      (∃ last, Stands decoder.pinned state.program block.image last ∧ last.stop = block.stop ∧
        last.flow.runsOn = true) ∧
      Barred decoder.pinned state.program block.behind ∧ Denied origin state block.behind := by
  have ended := complete.survey.accounted.blocks block member
  rw [cut] at ended
  refine ended.imp_right fun ⟨last, reason⟩ => ⟨last, reason.resolve_left fun spent => ?_⟩
  rw [complete.survey.ledger.configured] at spent
  exact absurd complete.room (Nat.not_lt_of_le spent)

theorem decided_behind {block : Block} (member : block ∈ state.blocks.blocks) {last : Instruction}
    (allows : block.exit.Allows last.flow) (runs : last.flow.runsOn = true)
    (fits : block.stop < 65536) : Decided decoder.pinned origin state block.behind := by
  cases exit : block.exit with
  | terminated =>
      rw [exit] at allows
      cases allows.symm.trans (Flow.leaves_of_runsOn runs)
  | conditional =>
      rw [exit] at allows
      rw [show last.flow = .conditionalJump from allows] at runs
      cases runs
  | fallThrough => exact .inl (complete.startsCode_behind member exit)
  | incomplete =>
      rcases complete.wraps_or_barred member exit with wraps | ⟨-, barred⟩
      · exact absurd fits (Nat.not_lt_of_le wraps)
      · exact .inr barred

theorem exit_eq {block : Block} (member : block ∈ state.blocks.blocks) {reading : Reading}
    (read : reading ∈ readings) (within : block.contains reading.place = true)
    (ends : reading.instruction.stop = block.stop) :
    block.exit = exitBehind reading.instruction (state.program.marksAt block.behind).startsCode := by
  have allows := complete.allows_of_stop member read within ends
  unfold exitBehind
  cases exit : block.exit with
  | terminated =>
      rw [exit] at allows
      have leaves : reading.instruction.flow.leaves = true := allows
      rw [if_pos leaves]
  | conditional =>
      have ended := complete.survey.accounted.blocks block member
      rw [exit] at allows ended
      have flow : reading.instruction.flow = .conditionalJump := allows
      have fits : ¬65536 ≤ reading.instruction.stop := ends ▸ Nat.not_le_of_lt ended
      simp [flow, Flow.leaves, Flow.runsOn, fits]
  | fallThrough =>
      rw [exit] at allows
      have runs : reading.instruction.flow.runsOn = true := allows
      have starts := complete.startsCode_behind member exit
      have fits : ¬65536 ≤ reading.instruction.stop :=
        ends ▸ Nat.not_le_of_lt (complete.offset_lt starts)
      simp [Flow.leaves_of_runsOn runs, runs, starts, fits]
  | incomplete =>
      rcases complete.wraps_or_barred member exit with
        wraps | ⟨⟨last, stands, stop, runs⟩, barred, -⟩
      · rw [exit] at allows
        have stays : reading.instruction.flow.leaves = false := allows
        simp [stays, ends, wraps]
      · have same : last = reading.instruction :=
          complete.eq_of_stop (complete.stands_in read within) stands (stop.trans ends.symm)
        rw [same] at runs
        simp [Flow.leaves_of_runsOn runs, runs, barred.idle]

theorem decided_onward {reading : Reading} (read : reading ∈ readings) {next : Address}
    {place : Place} (runs : reading.instruction.flow.runsOn = true)
    (ahead : following? reading.instruction reading.here = some next)
    (reached : origin.resolve next = some place) : Decided decoder.pinned origin state place := by
  have short : reading.instruction.length ≤ 15 := by
    obtain ⟨_, _, -, -, -, decoded⟩ := (complete.findable read).decodes
    exact (complete.inside.placed.pinned _ _ _ _ decoded).2.2
  obtain ⟨referent, offset⟩ := (following?_eq_some_iff short).mp ahead
  obtain ⟨block, member, within⟩ := complete.block_of_reading read
  have image : block.image = 0 := by
    rw [← (Block.contains_iff.mp within).1, complete.place_eq read]
  have stop : reading.instruction.stop = next.offset.toNat := by
    rw [Instruction.stop, (complete.stands_of_reading read).2, complete.place_eq read, offset]
  rw [complete.inside.flat.resolve (referent.trans (complete.home read)), ← stop, ← image,
    Option.some.injEq] at reached
  subst reached
  by_cases ends : reading.instruction.stop = block.stop
  -- Behind the last instruction of a block it is the exit that tells.
  · have small := next.offset.toNat_lt
    rw [ends]
    exact complete.decided_behind member (complete.allows_of_stop member read within ends) runs
      (by omega)
  · exact .inl (complete.runs_behind member read within ends).2

theorem mem_of_decided (clear : Clear decoder.pinned origin entries state) {reading : Reading}
    (findable : Findable decoder.pinned origin entries reading)
    (decided : Decided decoder.pinned origin state reading.place) : reading ∈ readings := by
  rcases decided with starts | ⟨barred, denied⟩
  · exact complete.mem_of_startsCode findable starts
  · exact absurd denied (clear reading findable barred)

theorem mem_of_task (clear : Clear decoder.pinned origin entries state) {reading : Reading}
    (findable : Findable decoder.pinned origin entries reading) {task : Task}
    (listed : task ∈ raised origin settings entries readings [])
    (points : task.reference.target = some reading.here) : reading ∈ readings := by
  obtain ⟨place, -, reached, inside, -⟩ := findable.decodes
  obtain rfl := Option.some.inj (reached.symm.trans findable.located)
  exact complete.mem_of_decided clear findable
    (complete.decided_of_task (complete.mem_finished_iff.mpr listed) points reached inside)

/-- A search that nothing was in the way of has read everything that the entry points lead to. -/
theorem mem_of_findable (clear : Clear decoder.pinned origin entries state) {reading : Reading}
    (findable : Findable decoder.pinned origin entries reading) : reading ∈ readings := by
  have departs {reading : Reading} (member : reading ∈ readings) {task : Task}
      (departs : task ∈ (fresh origin settings).departures reading.instruction reading.here) :
      task ∈ raised origin settings entries readings [] :=
    List.mem_append_left _ (List.mem_append_right _ (List.mem_flatMap.mpr ⟨reading, member, departs⟩))
  obtain ⟨place, here, instruction⟩ := reading
  have sought := findable.sought
  dsimp only at sought
  -- The instruction that leads to the address has been read by induction, and has raised its tasks.
  induction sought generalizing place instruction with
  | @entry entry listed =>
      have entered : .recorded (.toEntry entry.address) ∈ entryTasks entries :=
        List.mem_map.mpr ⟨entry, listed, rfl⟩
      exact complete.mem_of_task clear findable
        (List.mem_append_left _ (List.mem_append_left _ entered)) rfl
  | @branch source target jump sought decodes branches points ih =>
      have ⟨sourcePlace, _, reached, _⟩ := decodes
      have member := ih sourcePlace jump ⟨sought, decodes, reached⟩
      obtain ⟨kind, departure⟩ := exists_branchTask complete.inside.tables branches origin source
      exact complete.mem_of_task clear findable (departs member departure) points
  | @onward source next earlier sought decodes stays ahead ih =>
      have ⟨sourcePlace, _, reached, _⟩ := decodes
      have member := ih sourcePlace earlier ⟨sought, decodes, reached⟩
      by_cases conditional : earlier.flow = .conditionalJump
      · obtain ⟨task, departure, points⟩ := exists_onwardTask conditional ahead
        exact complete.mem_of_task clear findable (departs member departure) points
      · have runs : earlier.flow.runsOn = true := by
          cases flow : earlier.flow <;> simp_all [Flow.runsOn, Flow.leaves]
        exact complete.mem_of_decided clear findable
          (complete.decided_onward member runs ahead findable.located)

/-- Without findings about code in the way, nothing was. -/
theorem clear_of_reports
    (undisturbed : ∀ diagnostic ∈ state.diagnostics,
      diagnostic.code ≠ .ranIntoCode ∧ diagnostic.code ≠ .overlappingInstruction) :
    Clear decoder.pinned origin entries state := by
  rintro reading findable - ⟨target, reached, code, obstacle, reports⟩
  obtain ⟨dataless, undecodable⟩ := complete.survey.truthful target code reports
  obtain ⟨diagnostic, member, -, rfl⟩ := reports
  obtain ⟨notCode, notOverlapping⟩ := undisturbed diagnostic member
  -- The decoder is asked for the place, whatever the address.
  have decodes : Decodes decoder.pinned origin target reading.instruction := by
    obtain ⟨place, image, located, inside, found, decoded⟩ := findable.decodes
    obtain rfl := Option.some.inj (located.symm.trans findable.located)
    exact ⟨reading.place, image, reached, inside, found, decoded⟩
  simp only [obstacles, List.mem_cons, List.not_mem_nil, or_false] at obstacle
  rcases obstacle with data | code | invalid | broken | overlap
  · exact dataless data
  · exact notCode code
  · exact undecodable (.inl invalid) _ decodes
  · exact undecodable (.inr broken) _ decodes
  · exact notOverlapping overlap

end Complete

end RealMode.Analysis
