import RealMode.Proofs.Analysis.Ledger
import RealMode.Proofs.Analysis.Tiling

/-! Conditional jumps and the blocks that end with them.

Behind a conditional jump control may go two ways, so a block ends there. Cutting the block moves the
jump into its last part, which keeps the exit. So at every moment the blocks with a conditional exit,
together with a scan that is about to become one, answer to the jumps that have been read. -/

set_option autoImplicit false

namespace RealMode.Analysis

/-- Control may run on behind a conditional jump, or leave it for its target. -/
def Reading.Parts (reading : Reading) : Prop :=
  reading.instruction.flow = .conditionalJump ∧
    (following? reading.instruction reading.here).isSome = true

/-- The place behind the instruction of a reading. -/
def Reading.behind (reading : Reading) : Place := ⟨reading.place.image, reading.instruction.stop⟩

theorem onward_eq_conditional_iff {instruction : Instruction} {here : Address} :
    onward instruction here = .error .conditional ↔
      instruction.flow = .conditionalJump ∧ (following? instruction here).isSome = true := by
  unfold onward
  cases instruction.flow <;> cases following? instruction here <;> simp

/-- A scan ends with a conditional exit behind an instruction that parts control, and nowhere else. -/
theorem activityBehind_eq_conditional_iff {program : Program} {task other : Task}
    {start first : Place} {instruction : Instruction} {here : Address} {stop : Nat} :
    activityBehind program task start instruction here = .leaving other first stop .conditional ↔
      task = other ∧ start = first ∧ instruction.stop = stop ∧
        onward instruction here = .error .conditional := by
  unfold activityBehind
  cases onward instruction here with
  | error exit => simp
  | ok next =>
      dsimp only
      split <;> simp

/-- A block has been found, or a scan is left that is going to be the block. -/
def Moment.Holds (moment : Moment) (block : Block) : Prop :=
  block ∈ moment.state.blocks.blocks ∨ block.start < block.stop ∧
    ∃ task, moment.activity = .leaving task block.first block.stop block.exit

section Blocks

variable {decoder : Decoder} {origin : Program} {before after : Moment}

/-- What ends a block still ends one when the block has been closed or cut. -/
theorem Sound.holds_step (sound : Sound origin before) (regular : origin.Regular)
    (step : Step decoder before after) {block : Block} (holds : before.Holds block) :
    ∃ part, after.Holds part ∧ part.exit = block.exit ∧ part.behind = block.behind := by
  rcases holds with member | ⟨filled, task, leaving⟩
  · cases sound.blocks_step regular step with
    | none same => exact ⟨block, .inl (same ▸ member), rfl, rfl⟩
    | cut _ _ _ cut =>
        obtain ⟨part, found, exit, behind⟩ := BlockIndex.exists_part_behind _ _ block
        exact ⟨part, .inl (cut.mem_iff_exists_part.mpr ⟨block, member, found⟩), exit, behind⟩
    | grow _ grown => exact ⟨block, .inl ((grown.mem_iff block).mpr (.inr member)), rfl, rfl⟩
  · cases step with
    | close done =>
        cases leaving
        rcases sound.close_cases regular done with ⟨empty, -⟩ | ⟨-, grown⟩
        · exact absurd empty.symm (Nat.ne_of_lt filled)
        · exact ⟨block, .inl ((grown.mem_iff block).mpr (.inl rfl)), rfl, rfl⟩
    | _ => cases leaving

/-- A block with a conditional exit ends as one did before, or a scan has just come to its end. -/
theorem Sound.holds_of_step (sound : Sound origin before) (regular : origin.Regular)
    (step : Step decoder before after) {block : Block} (holds : after.Holds block)
    (conditional : block.exit = .conditional) :
    (∃ whole, before.Holds whole ∧ whole.exit = .conditional ∧ whole.behind = block.behind) ∨
      ∃ task here offset, before.activity = .scanning task block.first here offset ∧
        after.activity = .leaving task block.first block.stop .conditional := by
  rcases holds with member | ⟨filled, task, leaving⟩
  · left
    cases sound.blocks_step regular step with
    | none same => exact ⟨block, .inl (same ▸ member), conditional, rfl⟩
    | cut _ _ _ cut =>
        rcases (cut.mem_iff block).mp member with rfl | rfl | ⟨earlier, -⟩
        · cases conditional
        · exact ⟨_, .inl cut.member, conditional, rfl⟩
        · exact ⟨block, .inl earlier, conditional, rfl⟩
    | @grow _ task _ _ _ _ filled grown =>
        rcases (grown.mem_iff block).mp member with rfl | earlier
        · exact ⟨_, .inr ⟨filled, task, rfl⟩, conditional, rfl⟩
        · exact ⟨block, .inl earlier, conditional, rfl⟩
  · right
    rw [conditional] at leaving
    cases step with
    | advance _ _ _ _ =>
        obtain ⟨rfl, rfl, -⟩ := activityBehind_eq_conditional_iff.mp leaving
        exact ⟨_, _, _, rfl, leaving⟩
    | _ => cases leaving

end Blocks

/-- Blocks with a conditional exit end where the jumps do that part control, and the instructions that
have been read still stand. -/
structure Parted (decoder : Decoder) (readings : List Reading) (moment : Moment) : Prop where
  stand : ∀ reading ∈ readings,
    Stands decoder moment.state.program reading.place.image reading.instruction ∧
      reading.instruction.offset = reading.place.offset
  jump : ∀ block, moment.Holds block → block.exit = .conditional →
    ∃ reading ∈ readings, reading.Parts ∧ reading.behind = block.behind
  block : ∀ reading ∈ readings, reading.Parts →
    ∃ block, moment.Holds block ∧ block.exit = .conditional ∧ block.behind = reading.behind

namespace Parted

variable {decoder : Decoder} {origin : Program} {readings later : List Reading}
  {before after : Moment}

theorem enter (decoder : Decoder) (origin : Program) (settings : Settings)
    (entries : List EntryPoint) :
    Parted decoder [] ⟨(fresh origin settings).enter entries, .idle⟩ := by
  rw [enter_eq]
  constructor
  · intro _ member
    cases member
  · rintro block (member | ⟨-, _, ⟨⟩⟩)
    simp [fresh, BlockIndex.empty] at member
  · intro _ member
    cases member

/-- The jump that a scan has just read is the last instruction of the block that it is going to be. -/
theorem block_of_read {program : Program} {task : Task} {start : Place} {offset : Nat}
    {here : Address} {instruction : Instruction} {state : Analysis}
    (parts : Reading.Parts ⟨⟨start.image, offset⟩, here, instruction⟩)
    (filled : start.offset < instruction.stop) :
    let block : Block := ⟨start.image, start.offset, instruction.stop, .conditional⟩
    Moment.Holds ⟨state, activityBehind program task start instruction here⟩ block :=
  .inr ⟨filled, task,
    activityBehind_eq_conditional_iff.mpr ⟨rfl, rfl, rfl, onward_eq_conditional_iff.mpr parts⟩⟩

theorem step (parted : Parted decoder readings before) (sound : Sound origin before)
    (regular : origin.Regular) (placed : decoder.Placed) (step : Step decoder before after)
    (peruses : Peruses decoder before after readings later) : Parted decoder later after := by
  have remarked := step.remarked placed
  have forward (reading : Reading) (member : reading ∈ readings) (parts : reading.Parts) :
      ∃ block, after.Holds block ∧ block.exit = .conditional ∧ block.behind = reading.behind := by
    obtain ⟨block, holds, exit, behind⟩ := parted.block reading member parts
    obtain ⟨part, partHolds, partExit, partBehind⟩ := sound.holds_step regular step holds
    exact ⟨part, partHolds, partExit.trans exit, partBehind.trans behind⟩
  have stand (reading : Reading) (member : reading ∈ readings) :=
    (parted.stand reading member).imp_left (·.mono remarked)
  cases peruses with
  | none stops =>
      refine ⟨stand, fun block holds conditional => ?_, forward⟩
      rcases sound.holds_of_step regular step holds conditional with
        ⟨whole, wholeHolds, exit, behind⟩ | ⟨_, _, _, scanning, leaving⟩
      · rw [← behind]
        exact parted.jump whole wholeHolds exit
      · cases (stops _ _ _ _ scanning).symm.trans leaving
  | @one state after task start here offset image instruction _ found decoded unattributed marked =>
      obtain ⟨free, -⟩ := free_of_decoded placed found decoded unattributed
      obtain ⟨own, positive, -⟩ := placed _ _ _ _ decoded
      have order : start.offset ≤ offset := sound.located.2.2
      constructor
      · rintro reading (_ | ⟨_, earlier⟩)
        · subst own
          refine ⟨?_, rfl⟩
          dsimp only
          rw [marked]
          exact stands_of_marked free found decoded
        · exact stand reading earlier
      · intro block holds conditional
        rcases sound.holds_of_step regular step holds conditional with
          ⟨whole, wholeHolds, exit, behind⟩ | ⟨_, _, _, scanning, leaving⟩
        · obtain ⟨reading, member, parts, same⟩ := parted.jump whole wholeHolds exit
          exact ⟨reading, List.mem_cons_of_mem _ member, parts, same.trans behind⟩
        · obtain ⟨-, first, stop, ended⟩ := activityBehind_eq_conditional_iff.mp leaving
          refine ⟨_, List.mem_cons_self, onward_eq_conditional_iff.mp ended, ?_⟩
          simp [Reading.behind, Block.behind, first, stop, Block.first]
      · rintro reading (_ | ⟨_, earlier⟩) parts
        · exact ⟨_, block_of_read parts (by rw [Instruction.stop]; omega), rfl, rfl⟩
        · exact forward reading earlier parts

section Idle

variable {state : Analysis} (parted : Parted decoder readings ⟨state, .idle⟩)
  (sound : Sound origin ⟨state, .idle⟩) (tiled : Tiled decoder origin ⟨state, .idle⟩)

include parted sound tiled

/-- A block that ends behind an instruction holds all of it. -/
theorem contains {reading : Reading} (read : reading ∈ readings) {block : Block}
    (member : block ∈ state.blocks.blocks) (behind : reading.behind = block.behind) :
    block.contains reading.place = true := by
  obtain ⟨stands, offset⟩ := parted.stand reading read
  obtain ⟨image, stop⟩ := Place.mk.inj behind
  have filled := sound.owned.ordered.filled block member
  have long := stands.offset_lt_stop
  refine Block.contains_iff.mpr ⟨image, ?_, by omega⟩
  -- A block starts with an instruction, so it does not start inside another one.
  by_contra inside
  have starts := (tiled.blocks block member).startsCode_first
  rw [Block.first, ← image] at starts
  have same := (stands.startsCode_iff (by omega) (by omega)).mp starts
  omega

theorem jump_of_block {block : Block} (member : block ∈ state.blocks.blocks)
    (conditional : block.exit = .conditional) :
    ∃ reading ∈ readings, reading.Parts ∧ block.contains reading.place = true ∧
      reading.behind = block.behind := by
  obtain ⟨reading, read, parts, behind⟩ := parted.jump block (.inl member) conditional
  exact ⟨reading, read, parts, parted.contains sound tiled read member behind, behind⟩

theorem block_of_jump {reading : Reading} (read : reading ∈ readings) (parts : reading.Parts)
    {block : Block} (member : block ∈ state.blocks.blocks)
    (inside : block.contains reading.place = true) :
    block.exit = .conditional ∧ reading.behind = block.behind := by
  obtain ⟨other, holds, conditional, behind⟩ := parted.block reading read parts
  have otherMember := holds.resolve_right (by rintro ⟨-, _, ⟨⟩⟩)
  have otherInside := parted.contains sound tiled read otherMember behind.symm
  have ordered := sound.owned.ordered
  -- Blocks do not overlap.
  have same : block = other := Option.some.inj
    ((ordered.find?_eq_some_iff.mpr ⟨member, inside⟩).symm.trans
      (ordered.find?_eq_some_iff.mpr ⟨otherMember, otherInside⟩))
  rw [same]
  exact ⟨conditional, behind.symm⟩

end Idle

end Parted

end RealMode.Analysis
