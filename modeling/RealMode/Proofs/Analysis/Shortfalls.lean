import RealMode.Proofs.Analysis.Endings

/-! Why blocks are incomplete.

A scan ends before control leaves its instructions if no instruction can be marked where it stands, if
the addresses wrap behind the last instruction, or if the limit of instructions has been reached. The
first two are reported, and the third can be seen from the number of instructions. -/

set_option autoImplicit false

namespace RealMode.Analysis

/-- Why a block that ends at a place is incomplete. -/
inductive Excused (decoder : Decoder) (state : Analysis) (behind : Place) : Prop where
  | hindered {here : Address} {code : Diagnostic.Code}
      (reached : state.program.resolve here = some behind) (hindrance : code ∈ hindrances)
      (reports : state.Reports (some here) code)
  | wraps {here : Address} {last : Instruction}
      (stands : Stands decoder state.program behind.image last)
      (stop : last.stop = behind.offset)
      (reached : state.program.resolve here = some ⟨behind.image, last.offset⟩)
      (reports : state.Reports (some here) .addressWrapped)
  | spent (spent : state.settings.maxInstructions ≤ state.instructions)

section Excuses

variable {decoder : Decoder} {before after : Moment}

theorem Excused.step {behind : Place} (excused : Excused decoder before.state behind)
    (placed : decoder.Placed) (step : Step decoder before after) :
    Excused decoder after.state behind := by
  have remarked := step.remarked placed
  cases excused with
  | hindered reached hindrance reports =>
      apply hindered _ hindrance (reports.step step)
      rw [remarked.resolve, reached]
  | wraps stands stop reached reports =>
      apply wraps (stands.mono remarked) stop _ (reports.step step)
      rw [remarked.resolve, reached]
  | spent spent =>
      apply Excused.spent
      rw [step.settings]
      exact spent.trans step.instructions_le

/-- A scan runs out of addresses only behind an instruction that would let it run on. -/
theorem wraps_of_onward {instruction : Instruction} {here : Address}
    (ended : onward instruction here = .error .incomplete) : wraps instruction here = true := by
  unfold onward at ended
  unfold wraps
  cases ahead : following? instruction here with
  | none =>
      rw [ahead] at ended
      cases flow : instruction.flow <;> simp_all
  | some next =>
      rw [ahead] at ended
      cases flow : instruction.flow <;> simp [flow] at ended

theorem reports_wrapped {state : Analysis} {instruction : Instruction} {here : Address}
    (wrapped : wraps instruction here = true) :
    (state.departed instruction here).Reports (some here) .addressWrapped := by
  refine ⟨.found (some here) .addressWrapped ("address after " ++ instruction.body ++ " wraps"),
    ?_, rfl, rfl⟩
  simp [departed, remarks, wrapped]

end Excuses

/-- All blocks that are incomplete are so for a reason, and so is the scan that is being left. -/
structure Candid (decoder : Decoder) (moment : Moment) : Prop where
  blocks : ∀ block ∈ moment.state.blocks.blocks, block.exit = .incomplete →
    Excused decoder moment.state block.behind
  leaving : ∀ task start stop, moment.activity = .leaving task start stop .incomplete →
    Excused decoder moment.state ⟨start.image, stop⟩

namespace Candid

variable {decoder : Decoder} {origin : Program} {before after : Moment}

theorem fresh (decoder : Decoder) (program : Program) (settings : Settings) :
    Candid decoder ⟨.fresh program settings, .idle⟩ where
  blocks _ member := by simp [Analysis.fresh, BlockIndex.empty] at member
  leaving _ _ _ left := by cases left

theorem blocks_step (candid : Candid decoder before) (sound : Sound origin before)
    (regular : origin.Regular) (placed : decoder.Placed) (step : Step decoder before after) :
    ∀ block ∈ after.state.blocks.blocks, block.exit = .incomplete →
      Excused decoder after.state block.behind := by
  have kept (block : Block) (member : block ∈ before.state.blocks.blocks)
      (incomplete : block.exit = .incomplete) : Excused decoder after.state block.behind :=
    (candid.blocks block member incomplete).step placed step
  cases sound.blocks_step regular step with
  | none same =>
      rw [same]
      exact kept
  | @cut state task start whole blocks aims starts sameImage cut =>
      intro block member incomplete
      rcases (cut.mem_iff block).mp member with rfl | rfl | ⟨earlier, -⟩
      -- The head falls through to the tail, which ends as the whole block did.
      · cases incomplete
      · exact kept whole cut.member incomplete
      · exact kept block earlier incomplete
  | @grow state task start stop exit blocks filled grown =>
      intro block member incomplete
      rcases (grown.mem_iff block).mp member with rfl | earlier
      · obtain rfl : exit = .incomplete := incomplete
        exact (candid.leaving task start stop rfl).step placed step
      · exact kept block earlier incomplete

theorem leaving_step (sound : Sound origin before) (audited : Audited origin before)
    (placed : decoder.Placed) (step : Step decoder before after) {task : Task} {start : Place}
    {stop : Nat} (left : after.activity = .leaving task start stop .incomplete) :
    Excused decoder after.state ⟨start.image, stop⟩ := by
  cases step with
  | enter _ | derive _ _ _ _ | take _ _ | dismiss _ | consume _ | skip _ | note _ _ _ | cut _ _ _ _
  | begin _ _ _ _ | close _ | record _ | forget _ => cases left
  | exhaust spent =>
      cases left
      exact .spent spent
  | miss absent =>
      have inside := audited.pursued.1
      simp [Program.contains, absent] at inside
  | refuse _ refusal message =>
      cases left
      exact .hindered sound.located.2.1 refusal.code_mem_hindrances (reports_report ..)
  | @advance state _ _ here offset image instruction _ found decoded unattributed =>
      obtain ⟨free, -⟩ := free_of_decoded placed found decoded unattributed
      obtain ⟨rfl, -⟩ := placed _ _ _ _ decoded
      unfold activityBehind at left
      split at left
      · rename_i exit ended
        cases left
        apply Excused.wraps (stands_of_marked free found decoded) rfl
        · exact ((free.remarked (by decide)).resolve here).trans sound.located.2.1
        · exact reports_wrapped (wraps_of_onward ended)
      · split at left <;> cases left

theorem steps {program : Program} {settings : Settings} {moment : Moment} (regular : program.Regular)
    (placed : decoder.Placed) (steps : Steps decoder ⟨.fresh program settings, .idle⟩ moment) :
    Candid decoder moment := by
  induction steps with
  | refl => exact .fresh decoder program settings
  | tail earlier step ih =>
      have sound := Sound.steps regular placed earlier
      have audited := Audited.steps regular placed earlier
      exact ⟨ih.blocks_step sound regular placed step,
        fun _ _ _ => leaving_step sound audited placed step⟩

end Candid

/-- The instruction that ends where a block ends is the last one of the block. -/
theorem Genuine.offset_last {decoder : Decoder} {program : Program} {block : Block}
    {instruction : Instruction} (genuine : Genuine decoder program block)
    (stands : Stands decoder program block.image instruction)
    (stop : instruction.stop = block.stop) :
    ∃ leading last, Tiles decoder program block.image block.start block.stop (leading ++ [last]) ∧
      last.offset = instruction.offset := by
  obtain ⟨leading, last, tiles, -⟩ := genuine
  refine ⟨leading, last, tiles, ?_⟩
  have lastStands := tiles.stand last (by simp)
  have lastStop := laid_last tiles.laid
  have filled := stands.offset_lt_stop
  have lastFilled := lastStands.offset_lt_stop
  -- Both hold the last byte of the block.
  have low : instruction.offset ≤ block.stop - 1 := by omega
  have high : block.stop - 1 < instruction.stop := by omega
  exact stands.offset_eq lastStands low high (by omega) (by omega)

/-- No block is cut short silently. Behind a block that is incomplete a finding says why no instruction
can be marked, or one at its last instruction says that the address behind it wraps, or the limit of
instructions has been reached. -/
theorem findBlocks_incomplete_blocks {program : Program} {decoder : Decoder} (built : program.Built)
    (placed : decoder.Placed) (settings : Settings) (entries : List EntryPoint) :
    let outcome := findBlocks decoder (.fresh program settings) entries
    outcome.fault = none ∧
    ∀ block ∈ outcome.state.blocks.blocks, block.exit = .incomplete →
      (∃ here code, outcome.state.program.resolve here = some block.behind ∧
        (code = .invalidInstruction ∨ code = .brokenFixup ∨ code = .ranIntoData ∨
          code = .overlappingInstruction) ∧ outcome.state.Reports (some here) code) ∨
      (∃ here leading last,
        Tiles decoder outcome.state.program block.image block.start block.stop (leading ++ [last]) ∧
        outcome.state.program.resolve here = some ⟨block.image, last.offset⟩ ∧
        outcome.state.Reports (some here) .addressWrapped) ∨
      settings.maxInstructions ≤ outcome.state.instructions := by
  intro outcome
  have start : Reached decoder program settings (.fresh program settings) := .refl
  obtain ⟨faultless, reached⟩ := start.findBlocks built.regular placed entries
  have candid := Candid.steps built.regular placed reached
  have tiled := Tiled.steps built.regular placed reached
  refine ⟨faultless, fun block member incomplete => ?_⟩
  cases candid.blocks block member incomplete with
  | @hindered here code arrives hindrance reports =>
      simp only [hindrances, List.mem_cons, List.not_mem_nil, or_false] at hindrance
      exact .inl ⟨here, code, arrives, hindrance, reports⟩
  | @wraps here last stands stop arrives reports =>
      obtain ⟨leading, final, tiles, same⟩ := (tiled.blocks block member).offset_last stands stop
      exact .inr (.inl ⟨here, leading, final, tiles, same ▸ arrives, reports⟩)
  | spent spent =>
      have configured : outcome.state.settings = settings :=
        settings_findBlocks_fresh decoder program settings entries
      exact .inr (.inr (configured ▸ spent))

/-- A scan that finds no instruction behind its first one leaves a block of two bytes. -/
theorem sample_findBlocks_incomplete_blocks :
    let decoder := Script.decoder (sampleRows.take 2)
    let final := (findBlocks decoder (.fresh sample {}) [sampleEntry]).state
    let block : Block := ⟨0, 2, 4, .incomplete⟩
    sample.Built ∧ decoder.Placed ∧ block ∈ final.blocks.blocks ∧
      ∃ here code, final.program.resolve here = some block.behind ∧
        (code = .invalidInstruction ∨ code = .brokenFixup ∨ code = .ranIntoData ∨
          code = .overlappingInstruction) ∧ final.Reports (some here) code := by
  intro decoder final block
  have placed : decoder.Placed := Script.decoder_placed (by decide)
  have member : block ∈ final.blocks.blocks := by decide +kernel
  refine ⟨sample_built, placed, member, ?_⟩
  obtain ⟨-, reasons⟩ := findBlocks_incomplete_blocks sample_built placed {} [sampleEntry]
  rcases reasons block member rfl with hindered | ⟨here, -, -, -, -, diagnostic, known, -, code⟩ | spent
  · exact hindered
  · have others : ∀ diagnostic ∈ final.diagnostics, diagnostic.code ≠ .addressWrapped := by
      decide +kernel
    exact absurd code (others diagnostic known)
  · have room : final.instructions < ({} : Settings).maxInstructions := by decide +kernel
    exact absurd spent (Nat.not_le_of_lt room)

end RealMode.Analysis
