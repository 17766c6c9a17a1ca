import RealMode.Proofs.Analysis.Calls

/-! Blocks as sequences of instructions.

The bytes of a block are those of instructions that lie one behind the other. Control runs on
behind each of them but the last, and the exit of the block is that of its last instruction. -/

set_option autoImplicit false

namespace RealMode

/-- Instructions lie one behind the other from `start` up to `stop`. -/
def Laid : (start stop : Nat) → List Instruction → Prop
  | start, stop, [] => start = stop
  | start, stop, instruction :: rest => instruction.offset = start ∧ Laid instruction.stop stop rest

theorem laid_append {start stop : Nat} {front back : List Instruction} :
    Laid start stop (front ++ back) ↔ ∃ middle, Laid start middle front ∧ Laid middle stop back := by
  induction front generalizing start with
  | nil => simp [Laid]
  | cons instruction rest ih => simp [Laid, ih, and_assoc]

theorem laid_last {start stop : Nat} {leading : List Instruction} {last : Instruction}
    (laid : Laid start stop (leading ++ [last])) : last.stop = stop := by
  obtain ⟨middle, -, -, ends⟩ := laid_append.mp laid
  exact ends

/-- Behind an instruction lies the next one, or it is the last. -/
theorem Laid.stop_cases {start stop : Nat} {instructions : List Instruction}
    {instruction : Instruction} (laid : Laid start stop instructions)
    (member : instruction ∈ instructions) :
    instruction.stop = stop ∨ ∃ next ∈ instructions, next.offset = instruction.stop := by
  obtain ⟨front, back, rfl⟩ := List.append_of_mem member
  obtain ⟨middle, -, -, behind⟩ := laid_append.mp laid
  cases back with
  | nil => exact .inl behind
  | cons next rest => exact .inr ⟨next, by simp, behind.1⟩

namespace Analysis

/-- An instruction has been decoded, and the marks of its bytes are those of one instruction. -/
structure Stands (decoder : Decoder) (program : Program) (image : Nat) (instruction : Instruction) :
    Prop where
  decoded : ∃ found other ip, program.image? image = some found ∧ other.blank = found.blank ∧
    decoder other instruction.offset ip = .ok instruction
  positive : 0 < instruction.length
  marks : ∀ offset, instruction.offset ≤ offset → offset < instruction.stop →
    program.marksAt ⟨image, offset⟩ = .inRun .code instruction.offset offset

structure Tiles (decoder : Decoder) (program : Program) (image start stop : Nat)
    (instructions : List Instruction) : Prop where
  laid : Laid start stop instructions
  stand : ∀ instruction ∈ instructions, Stands decoder program image instruction

section Tiles

variable {decoder : Decoder} {program later : Program} {image start stop cutoff : Nat}
  {instruction : Instruction} {instructions : List Instruction}

theorem Stands.mono (stands : Stands decoder program image instruction)
    (remarked : program.Remarked later) : Stands decoder later image instruction := by
  obtain ⟨⟨found, other, ip, lookup, same, decoded⟩, positive, marks⟩ := stands
  refine ⟨?_, positive, fun offset low high => ?_⟩
  · obtain ⟨kept, keptFound, blank⟩ := remarked.exists_image lookup
    exact ⟨kept, other, ip, keptFound, same.trans blank.symm, decoded⟩
  · have known : (program.marksAt ⟨image, offset⟩).isUnknown = false := by
      rw [marks offset low high, Marks.isUnknown_inRun]
    rw [remarked.marksAt_of_known known, marks offset low high]

theorem Stands.startsCode_iff (stands : Stands decoder program image instruction) {offset : Nat}
    (low : instruction.offset ≤ offset) (high : offset < instruction.stop) :
    (program.marksAt ⟨image, offset⟩).startsCode = true ↔ offset = instruction.offset := by
  rw [stands.marks offset low high, Marks.startsCode_inRun]
  simp

theorem Stands.offset_lt_stop (stands : Stands decoder program image instruction) :
    instruction.offset < instruction.stop :=
  Nat.lt_add_of_pos_right stands.positive

/-- Instructions that share a byte start at the same one. -/
theorem Stands.offset_eq {other : Instruction} (stands : Stands decoder program image instruction)
    (also : Stands decoder program image other) {byte : Nat} (low : instruction.offset ≤ byte)
    (high : byte < instruction.stop) (otherLow : other.offset ≤ byte) (otherHigh : byte < other.stop) :
    other.offset = instruction.offset := by
  rcases Nat.le_total instruction.offset other.offset with behind | before
  · have starts := (also.startsCode_iff (Nat.le_refl _) also.offset_lt_stop).mpr rfl
    exact (stands.startsCode_iff behind (Nat.lt_of_le_of_lt otherLow high)).mp starts
  · have starts := (stands.startsCode_iff (Nat.le_refl _) stands.offset_lt_stop).mpr rfl
    exact ((also.startsCode_iff before (Nat.lt_of_le_of_lt low otherHigh)).mp starts).symm

theorem Tiles.mono (tiles : Tiles decoder program image start stop instructions)
    (remarked : program.Remarked later) : Tiles decoder later image start stop instructions :=
  ⟨tiles.laid, fun instruction member => (tiles.stand instruction member).mono remarked⟩

theorem tiles_append {front back : List Instruction} :
    Tiles decoder program image start stop (front ++ back) ↔
      ∃ middle, Tiles decoder program image start middle front ∧
        Tiles decoder program image middle stop back := by
  constructor
  · rintro ⟨laid, stand⟩
    obtain ⟨middle, inFront, inBack⟩ := laid_append.mp laid
    exact ⟨middle, ⟨inFront, fun other member => stand other (List.mem_append_left back member)⟩,
      ⟨inBack, fun other member => stand other (List.mem_append_right front member)⟩⟩
  · rintro ⟨middle, inFront, inBack⟩
    refine ⟨laid_append.mpr ⟨middle, inFront.laid, inBack.laid⟩, fun other member => ?_⟩
    exact (List.mem_append.mp member).elim (inFront.stand other) (inBack.stand other)

theorem Tiles.start_le_stop (tiles : Tiles decoder program image start stop instructions) :
    start ≤ stop := by
  induction instructions generalizing start with
  | nil => exact Nat.le_of_eq tiles.laid
  | cons instruction rest ih =>
      obtain ⟨first, laid⟩ := tiles.laid
      have filled := (tiles.stand instruction List.mem_cons_self).offset_lt_stop
      have behind := ih ⟨laid, fun other member =>
        tiles.stand other (List.mem_cons_of_mem instruction member)⟩
      omega

theorem Tiles.covers (tiles : Tiles decoder program image start stop instructions) {offset : Nat}
    (low : start ≤ offset) (high : offset < stop) :
    ∃ instruction ∈ instructions, instruction.offset ≤ offset ∧ offset < instruction.stop := by
  induction instructions generalizing start with
  | nil => exact absurd (tiles.laid ▸ low : stop ≤ offset) (Nat.not_le_of_lt high)
  | cons instruction rest ih =>
      obtain ⟨first, laid⟩ := tiles.laid
      by_cases inside : offset < instruction.stop
      · exact ⟨instruction, List.mem_cons_self, first ▸ low, inside⟩
      · have others : Tiles decoder program image instruction.stop stop rest :=
          ⟨laid, fun other member => tiles.stand other (List.mem_cons_of_mem instruction member)⟩
        obtain ⟨other, member, found⟩ := ih others (Nat.le_of_not_lt inside)
        exact ⟨other, List.mem_cons_of_mem instruction member, found⟩

/-- Instructions start exactly at the bytes that are marked so. -/
theorem Tiles.startsCode_iff (tiles : Tiles decoder program image start stop instructions)
    {offset : Nat} (low : start ≤ offset) (high : offset < stop) :
    (program.marksAt ⟨image, offset⟩).startsCode = true ↔
      ∃ instruction ∈ instructions, instruction.offset = offset := by
  constructor
  · intro starts
    obtain ⟨instruction, member, above, below⟩ := tiles.covers low high
    exact ⟨instruction, member,
      (((tiles.stand instruction member).startsCode_iff above below).mp starts).symm⟩
  · rintro ⟨instruction, member, rfl⟩
    have stands := tiles.stand instruction member
    exact (stands.startsCode_iff (Nat.le_refl _) stands.offset_lt_stop).mpr rfl

/-- Instructions can be parted at a byte that is marked as the start of one. -/
theorem Tiles.part (tiles : Tiles decoder program image start stop instructions)
    (low : start < cutoff) (high : cutoff < stop)
    (starts : (program.marksAt ⟨image, cutoff⟩).startsCode = true) :
    ∃ front back, instructions = front ++ back ∧ front ≠ [] ∧ back ≠ [] ∧
      Tiles decoder program image start cutoff front ∧
      Tiles decoder program image cutoff stop back := by
  obtain ⟨instruction, member, rfl⟩ := (tiles.startsCode_iff (Nat.le_of_lt low) high).mp starts
  obtain ⟨front, rest, rfl⟩ := List.append_of_mem member
  obtain ⟨middle, inFront, inBack⟩ := tiles_append.mp tiles
  obtain rfl : instruction.offset = middle := inBack.laid.1
  refine ⟨front, instruction :: rest, rfl, ?_, List.cons_ne_nil instruction rest, inFront, inBack⟩
  rintro rfl
  exact absurd inFront.laid (Nat.ne_of_lt low)

/-- The block is a sequence of instructions that ends as its exit says. -/
def Genuine (decoder : Decoder) (program : Program) (block : Block) : Prop :=
  ∃ leading last, Tiles decoder program block.image block.start block.stop (leading ++ [last]) ∧
    (∀ instruction ∈ leading, instruction.flow.runsOn = true) ∧ block.exit.Allows last.flow

theorem Genuine.mono {block : Block} (genuine : Genuine decoder program block)
    (remarked : program.Remarked later) : Genuine decoder later block := by
  obtain ⟨leading, last, tiles, ahead, ends⟩ := genuine
  exact ⟨leading, last, tiles.mono remarked, ahead, ends⟩

theorem Genuine.startsCode_first {block : Block} (genuine : Genuine decoder program block) :
    (program.marksAt block.first).startsCode = true := by
  obtain ⟨leading, last, tiles, -⟩ := genuine
  obtain ⟨instruction, rest, split⟩ := List.exists_cons_of_ne_nil (by simp : leading ++ [last] ≠ [])
  have stands := tiles.stand instruction (by simp [split])
  have first : instruction.offset = block.start := (split ▸ tiles.laid : Laid _ _ (_ :: _)).1
  rw [Block.first, ← first]
  exact (stands.startsCode_iff (Nat.le_refl _) stands.offset_lt_stop).mpr rfl

/-- Both parts of a block that is cut at an instruction end as their exits say. -/
theorem Genuine.parts {block : Block} (genuine : Genuine decoder program block)
    (above : block.start < cutoff) (below : cutoff < block.stop)
    (starts : (program.marksAt ⟨block.image, cutoff⟩).startsCode = true) :
    Genuine decoder program (BlockIndex.head block cutoff) ∧
      Genuine decoder program (BlockIndex.tail block cutoff) := by
  obtain ⟨leading, last, tiles, ahead, ends⟩ := genuine
  obtain ⟨front, back, whole, frontFilled, backFilled, inFront, inBack⟩ :=
    tiles.part above below starts
  obtain ⟨backLeading, backLast, rfl⟩ := (List.eq_nil_or_concat back).resolve_left backFilled
  obtain ⟨frontLeading, frontLast, rfl⟩ := (List.eq_nil_or_concat front).resolve_left frontFilled
  simp only [List.concat_eq_append] at whole inFront inBack
  rw [← List.append_assoc] at whole
  -- The last instruction stays in the tail, so all of the head comes before it.
  obtain ⟨rfl, sameLast⟩ := List.append_inj' whole rfl
  obtain rfl := List.singleton_inj.mp sameLast
  constructor
  · refine ⟨frontLeading, frontLast, inFront, fun instruction member => ahead instruction ?_, ?_⟩
    · exact List.mem_append_left _ (List.mem_append_left _ member)
    · exact ahead frontLast (by simp)
  · exact ⟨backLeading, last, inBack,
      fun instruction member => ahead instruction (List.mem_append_right _ member), ends⟩

/-- Where control runs on behind the last instruction, a block could end without an exit. -/
theorem Tiles.genuine_incomplete (tiles : Tiles decoder program image start stop instructions)
    (ahead : ∀ instruction ∈ instructions, instruction.flow.runsOn = true) (filled : start < stop) :
    Genuine decoder program ⟨image, start, stop, .incomplete⟩ := by
  rcases List.eq_nil_or_concat instructions with rfl | ⟨leading, last, rfl⟩
  · exact absurd tiles.laid (Nat.ne_of_lt filled)
  · rw [List.concat_eq_append] at tiles ahead
    refine ⟨leading, last, tiles, fun other member => ahead other (List.mem_append_left _ member), ?_⟩
    have runs := ahead last (by simp)
    change last.flow.leaves = false
    cases flow : last.flow <;> simp_all [Flow.runsOn, Flow.leaves]

theorem stands_of_marked {found : Image} {ip : UInt16}
    (free : program.Free ⟨image, instruction.offset⟩ instruction.length)
    (lookup : program.image? image = some found)
    (decoded : decoder found instruction.offset ip = .ok instruction) :
    Stands decoder (program.paint .code ⟨image, instruction.offset⟩ instruction.length) image
      instruction := by
  refine ⟨?_, free.1, fun offset low high => ?_⟩
  · have remarked := free.remarked (by decide : Content.code ≠ .padding)
    obtain ⟨kept, keptFound, blank⟩ := remarked.exists_image lookup
    exact ⟨kept, found, ip, keptFound, blank.symm, decoded⟩
  · rw [free.marksAt_paint, if_pos ⟨rfl, low, high⟩]

end Tiles

/-- What a scan has marked is a sequence of instructions. -/
def ScanTiles (decoder : Decoder) (program : Program) : Activity → Prop
  | .idle | .following _ | .settled _ => True
  | .scanning _ start _ offset => ∃ instructions,
      Tiles decoder program start.image start.offset offset instructions ∧
        ∀ instruction ∈ instructions, instruction.flow.runsOn = true
  | .leaving _ start stop exit =>
      start.offset < stop → Genuine decoder program ⟨start.image, start.offset, stop, exit⟩

/-- Blocks and scans are sequences of instructions, and a block that falls through has another
block or code of the origin behind it. -/
structure Tiled (decoder : Decoder) (origin : Program) (moment : Moment) : Prop where
  blocks : ∀ block ∈ moment.state.blocks.blocks, Genuine decoder moment.state.program block
  scanned : ScanTiles decoder moment.state.program moment.activity
  continued : ∀ block ∈ moment.state.blocks.blocks, block.exit = .fallThrough →
    (∃ other ∈ moment.state.blocks.blocks, other.first = block.behind) ∨
      (origin.marksAt block.behind).isCode = true

namespace Tiled

variable {decoder : Decoder} {origin : Program} {before after : Moment}

theorem fresh (decoder : Decoder) (program : Program) (settings : Settings) :
    Tiled decoder program ⟨.fresh program settings, .idle⟩ where
  blocks _ member := by simp [Analysis.fresh, BlockIndex.empty] at member
  scanned := trivial
  continued _ member := by simp [Analysis.fresh, BlockIndex.empty] at member

theorem blocks_step (tiled : Tiled decoder origin before) (sound : Sound origin before)
    (regular : origin.Regular) (placed : decoder.Placed) (step : Step decoder before after) :
    ∀ block ∈ after.state.blocks.blocks, Genuine decoder after.state.program block := by
  have remarked := step.remarked placed
  cases sound.blocks_step regular step with
  | none same =>
      rw [same]
      exact fun block member => (tiled.blocks block member).mono remarked
  | @cut state task start block blocks aims starts sameImage cut =>
      intro other member
      have whole := tiled.blocks block cut.member
      obtain ⟨head, tail⟩ := whole.parts cut.above cut.below (by rw [sameImage]; exact starts)
      rcases (cut.mem_iff other).mp member with rfl | rfl | ⟨earlier, -⟩
      · exact head
      · exact tail
      · exact tiled.blocks other earlier
  | grow filled grown =>
      intro other member
      rcases (grown.mem_iff other).mp member with rfl | earlier
      · exact tiled.scanned filled
      · exact tiled.blocks other earlier

theorem scanned_step (tiled : Tiled decoder origin before) (placed : decoder.Placed)
    (step : Step decoder before after) : ScanTiles decoder after.state.program after.activity := by
  have scanned := tiled.scanned
  cases step with
  | enter _ | derive _ _ _ _ | take _ _ | dismiss _ | consume _ | skip _ | note _ _ _ | cut _ _ _ _
  | close _ | record _ | forget _ => trivial
  | begin _ _ _ _ => exact ⟨[], ⟨rfl, nofun⟩, nofun⟩
  | exhaust _ | miss _ | refuse _ _ _ =>
      obtain ⟨instructions, tiles, ahead⟩ := scanned
      exact fun filled => tiles.genuine_incomplete ahead filled
  | @advance state task start here offset image instruction _ found decoded unattributed =>
      obtain ⟨instructions, tiles, ahead⟩ := scanned
      obtain ⟨free, -⟩ := free_of_decoded placed found decoded unattributed
      obtain ⟨rfl, -⟩ := placed _ _ _ _ decoded
      -- The instruction joins those before it, whether the scan goes on or not.
      have stands := stands_of_marked free found decoded
      have grown : Tiles decoder (state.program.paint .code _ _) start.image start.offset
          instruction.stop (instructions ++ [instruction]) :=
        tiles_append.mpr ⟨instruction.offset, tiles.mono (free.remarked (by decide)),
          ⟨⟨rfl, rfl⟩, fun other member => List.mem_singleton.mp member ▸ stands⟩⟩
      unfold activityBehind
      split
      · rename_i exit ended
        exact fun _ => ⟨instructions, instruction, grown, ahead, (onward_eq_error ended).1⟩
      · rename_i next way
        have runs := (onward_eq_ok way).1
        split
        · exact fun _ => ⟨instructions, instruction, grown, ahead, runs⟩
        · refine ⟨_, grown, fun other member => ?_⟩
          rcases List.mem_append.mp member with earlier | last
          · exact ahead other earlier
          · exact List.mem_singleton.mp last ▸ runs

theorem continued_of_leaving {state : Analysis} {task : Task} {start : Place} {stop : Nat}
    (sound : Sound origin ⟨state, .leaving task start stop .fallThrough⟩) :
    (∃ other ∈ state.blocks.blocks, other.first = ⟨start.image, stop⟩) ∨
      (origin.marksAt ⟨start.image, stop⟩).isCode = true := by
  obtain ⟨-, -, falls⟩ := sound.located
  obtain ⟨filled, starts⟩ := falls rfl
  have code := Marks.isCode_of_startsCode starts
  -- Code behind the scan was code of the origin, or it has an owner that is not the scan itself.
  cases unknown : (origin.marksAt ⟨start.image, stop⟩).isUnknown with
  | false =>
      rw [sound.owned.remarked.marksAt_of_known unknown] at code
      exact .inr code
  | true =>
      rcases (sound.owned.code _).mp ⟨unknown, code⟩ with ⟨block, member, inside⟩ | held
      · exact .inl ⟨block, member, sound.first_of_behind filled member inside⟩
      · exact absurd (Block.contains_iff.mp held).2.2 (Nat.lt_irrefl stop)

theorem continued_step (tiled : Tiled decoder origin before) (sound : Sound origin before)
    (regular : origin.Regular) (step : Step decoder before after) :
    ∀ block ∈ after.state.blocks.blocks, block.exit = .fallThrough →
      (∃ other ∈ after.state.blocks.blocks, other.first = block.behind) ∨
        (origin.marksAt block.behind).isCode = true := by
  have continued := tiled.continued
  have change := sound.blocks_step regular step
  -- A block starts wherever one did before, so a successor is never lost to a later cut.
  have earlier {place : Place}
      (found : ∃ other ∈ before.state.blocks.blocks, other.first = place) :
      ∃ other ∈ after.state.blocks.blocks, other.first = place := change.keeps_first found
  cases change with
  | none same =>
      rw [same]
      exact continued
  | @cut state task start block blocks aims starts sameImage cut =>
      intro other member falls
      rcases (cut.mem_iff other).mp member with rfl | rfl | ⟨found, -⟩
      -- The head falls through into the tail, which keeps the exit of the whole.
      · exact .inl (cut.exists_first_iff.mpr (.inl rfl))
      · exact (continued block cut.member falls).imp_left earlier
      · exact (continued other found falls).imp_left earlier
  | @grow state task start stop exit blocks filled grown =>
      intro other member falls
      rcases (grown.mem_iff other).mp member with rfl | found
      · obtain rfl : exit = .fallThrough := falls
        exact (continued_of_leaving sound).imp_left earlier
      · exact (continued other found falls).imp_left earlier

theorem step (tiled : Tiled decoder origin before) (sound : Sound origin before)
    (regular : origin.Regular) (placed : decoder.Placed) (step : Step decoder before after) :
    Tiled decoder origin after :=
  ⟨tiled.blocks_step sound regular placed step, tiled.scanned_step placed step,
    tiled.continued_step sound regular step⟩

theorem steps {program : Program} {settings : Settings} {moment : Moment} (regular : program.Regular)
    (placed : decoder.Placed) (steps : Steps decoder ⟨.fresh program settings, .idle⟩ moment) :
    Tiled decoder program moment := by
  induction steps with
  | refl => exact .fresh decoder program settings
  | tail earlier step ih => exact ih.step (.steps regular placed earlier) regular placed step

end Tiled

/-- What instructions say of themselves, every reading of their bytes says again. -/
theorem Tiles.reads {decoder : Decoder} {program : Program} {number start stop : Nat} {image : Image}
    {instructions : List Instruction} (tiles : Tiles decoder program number start stop instructions)
    (steady : decoder.Steady fun instruction => (instruction.length, instruction.flow))
    (lookup : program.image? number = some image) {instruction : Instruction}
    (member : instruction ∈ instructions) (ip : UInt16) :
    ∃ read, decoder image instruction.offset ip = .ok read ∧ read.length = instruction.length ∧
      read.flow = instruction.flow := by
  obtain ⟨found, other, otherIp, otherLookup, same, decoded⟩ := (tiles.stand instruction member).decoded
  obtain rfl := Option.some.inj (lookup.symm.trans otherLookup)
  obtain ⟨read, readAgain, alike⟩ := steady.decodes same decoded ip
  exact ⟨read, readAgain, (Prod.mk.inj alike).1, (Prod.mk.inj alike).2⟩

/-- A search for blocks finds basic blocks: each is made up of whole instructions that start at its
marked bytes, control leaves it behind the last one only, and its exit says how. -/
theorem findBlocks_tiles_blocks {program : Program} {decoder : Decoder} (built : program.Built)
    (placed : decoder.Placed)
    (steady : decoder.Steady fun instruction => (instruction.length, instruction.flow))
    (settings : Settings) (entries : List EntryPoint) :
    let outcome := findBlocks decoder (.fresh program settings) entries
    outcome.fault = none ∧ ∀ block ∈ outcome.state.blocks.blocks, ∃ image leading last,
      outcome.state.program.image? block.image = some image ∧
      Laid block.start block.stop (leading ++ [last]) ∧
      (∀ instruction ∈ leading ++ [last], ∀ ip, ∃ read,
        decoder image instruction.offset ip = .ok read ∧ read.length = instruction.length ∧
          read.flow = instruction.flow) ∧
      (∀ offset, block.start ≤ offset → offset < block.stop →
        ((outcome.state.program.marksAt ⟨block.image, offset⟩).startsCode = true ↔
          ∃ instruction ∈ leading ++ [last], instruction.offset = offset)) ∧
      (∀ instruction ∈ leading, instruction.flow.runsOn = true) ∧
      block.exit.Allows last.flow ∧
      (block.exit = .fallThrough →
        (∃ other ∈ outcome.state.blocks.blocks, other.first = block.behind) ∨
          (program.marksAt block.behind).isCode = true) := by
  intro outcome
  have start : Reached decoder program settings (.fresh program settings) := .refl
  obtain ⟨faultless, reached⟩ := start.findBlocks built.regular placed entries
  have tiled := Tiled.steps built.regular placed reached
  refine ⟨faultless, fun block member => ?_⟩
  obtain ⟨leading, last, tiles, ahead, ends⟩ := tiled.blocks block member
  obtain ⟨image, -, -, lookup, -⟩ := (tiles.stand last (by simp)).decoded
  exact ⟨image, leading, last, lookup, tiles.laid, fun _ found => tiles.reads steady lookup found,
    fun _ => tiles.startsCode_iff, ahead, ends, tiled.continued block member⟩

/-- The instruction between the conditional jump and the jump through the table is a block that
falls through. -/
theorem sample_findBlocks_tiles :
    let blocks := (findBlocks sampleDecoder (.fresh sample {}) [sampleEntry]).state.blocks.blocks
    sample.Built ∧ sampleDecoder.Placed ∧
      sampleDecoder.Steady (fun instruction => (instruction.length, instruction.flow)) ∧
      ⟨0, 2, 4, .fallThrough⟩ ∈ blocks ∧
      (∃ leading last, Laid 2 4 (leading ++ [last]) ∧ last.flow.runsOn = true) ∧
      ((∃ other ∈ blocks, other.first = ⟨0, 4⟩) ∨ (sample.marksAt ⟨0, 4⟩).isCode = true) := by
  intro blocks
  have steady := Script.decoder_steady sampleRows
  have member : ⟨0, 2, 4, .fallThrough⟩ ∈ blocks := by decide +kernel
  obtain ⟨image, leading, last, -, laid, -, -, -, ends, continued⟩ :=
    (findBlocks_tiles_blocks sample_built sampleDecoder_placed steady {} [sampleEntry]).2 _ member
  exact ⟨sample_built, sampleDecoder_placed, steady, member, ⟨leading, last, laid, ends⟩,
    continued rfl⟩

end Analysis

end RealMode
