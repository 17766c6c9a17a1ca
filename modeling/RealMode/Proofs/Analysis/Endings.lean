import RealMode.Proofs.Analysis.Findings
import RealMode.Proofs.Analysis.Seeking

/-! Why blocks end where they do, and what findings stand for.

In a flat program a block is incomplete where the addresses wrap, where a limit has been reached, or
where no instruction can be marked behind it, and then there is a finding. A finding that says that
there is no instruction at an address is true. -/

set_option autoImplicit false

namespace RealMode.Analysis

/-- A finding at an address of a place keeps a scan from going on there. -/
def Denied (origin : Program) (state : Analysis) (place : Place) : Prop :=
  ∃ target, origin.resolve target = some place ∧
    ∃ code ∈ obstacles, state.Reports (some target) code

/-- What an exit tells of the place behind a block. -/
def Ended (decoder : Decoder) (origin : Program) (state : Analysis) (behind : Place) :
    Block.Exit → Prop
  | .terminated | .fallThrough => True
  | .conditional => behind.offset < 65536
  | .incomplete => 65536 ≤ behind.offset ∨
      (∃ last, Stands decoder state.program behind.image last ∧ last.stop = behind.offset ∧
        last.flow.runsOn = true) ∧
      (state.settings.maxInstructions ≤ state.instructions ∨
        Barred decoder state.program behind ∧ Denied origin state behind)

def Closing (decoder : Decoder) (origin : Program) (state : Analysis) : Activity → Prop
  | .idle | .following _ | .settled _ => True
  | .scanning _ start _ offset => (state.program.marksAt ⟨start.image, offset⟩).startsCode = false
  | .leaving _ start stop exit =>
      start.offset < stop → Ended decoder origin state ⟨start.image, stop⟩ exit

section Ended

variable {decoder : Decoder} {origin : Program} {before after : Moment} {behind : Place}
  {exit : Block.Exit}

theorem Step.instructions_le (step : Step decoder before after) :
    before.state.instructions ≤ after.state.instructions := by
  cases step with
  | advance _ _ _ _ => exact Nat.le_succ _
  | _ => exact Nat.le_refl _

theorem Denied.step (denied : Denied origin before.state behind) (step : Step decoder before after) :
    Denied origin after.state behind := by
  obtain ⟨target, reached, code, obstacle, reports⟩ := denied
  exact ⟨target, reached, code, obstacle, reports.step step⟩

theorem Ended.step (ended : Ended decoder origin before.state behind exit) (placed : decoder.Placed)
    (steady : decoder.Steady Instruction.length) (step : Step decoder before after) :
    Ended decoder origin after.state behind exit := by
  cases exit with
  | terminated | fallThrough => trivial
  | conditional => exact ended
  | incomplete =>
      rcases ended with wraps | ⟨⟨last, stands, stop, runs⟩, reason⟩
      · exact .inl wraps
      · refine .inr ⟨⟨last, stands.mono (step.remarked placed), stop, runs⟩, ?_⟩
        rcases reason with spent | ⟨barred, denied⟩
        · left
          rw [step.settings]
          exact spent.trans step.instructions_le
        · exact .inr ⟨barred.step placed steady step, denied.step step⟩

/-- The exit behind an instruction tells whether the address behind it wraps. -/
theorem ended_of_onward {state : Analysis} {instruction : Instruction} {here : Address}
    (ended : onward instruction here = .error exit) (short : instruction.length ≤ 15)
    (offset : behind.offset = here.offset.toNat + instruction.length) :
    Ended decoder origin state behind exit := by
  unfold onward at ended
  cases ahead : following? instruction here with
  | none =>
      cases exit with
      | terminated | fallThrough => trivial
      | conditional =>
          rw [ahead] at ended
          split at ended <;> simp_all
      | incomplete =>
          left
          by_contra small
          have fits : here.offset.toNat + instruction.length < 65536 := by omega
          let next : Address := ⟨here.referent, UInt16.ofNat (here.offset.toNat + instruction.length)⟩
          have some : following? instruction here = some next :=
            (following?_eq_some_iff short).mpr ⟨rfl, UInt16.toNat_ofNat_of_lt' fits⟩
          cases ahead.symm.trans some
  | some next =>
      cases exit with
      | terminated | fallThrough => trivial
      | conditional =>
          have moved := ((following?_eq_some_iff short).mp ahead).2
          have small := next.offset.toNat_lt
          change behind.offset < 65536
          omega
      | incomplete =>
          rw [ahead] at ended
          split at ended <;> simp_all

end Ended

/-- Blocks have ended for a reason, and so has the scan that is being left. -/
structure Accounted (decoder : Decoder) (origin : Program) (moment : Moment) : Prop where
  blocks : ∀ block ∈ moment.state.blocks.blocks,
    Ended decoder origin moment.state block.behind block.exit
  closing : Closing decoder origin moment.state moment.activity

namespace Accounted

variable {decoder : Decoder} {origin : Program} {before after : Moment}

theorem blocks_step (accounted : Accounted decoder origin before) (sound : Sound origin before)
    (regular : origin.Regular) (placed : decoder.Placed)
    (steady : decoder.Steady Instruction.length) (step : Step decoder before after) :
    ∀ block ∈ after.state.blocks.blocks, Ended decoder origin after.state block.behind block.exit := by
  have kept (block : Block) (member : block ∈ before.state.blocks.blocks) :=
    (accounted.blocks block member).step placed steady step
  cases sound.blocks_step regular step with
  | none same =>
      rw [same]
      exact kept
  | @cut state task start whole blocks aims starts sameImage cut =>
      intro block member
      rcases (cut.mem_iff block).mp member with rfl | rfl | ⟨earlier, -⟩
      · trivial
      · exact kept whole cut.member
      · exact kept block earlier
  | grow filled grown =>
      intro block member
      rcases (grown.mem_iff block).mp member with rfl | earlier
      · exact accounted.closing filled
      · exact kept block earlier

/-- The last of the instructions that a scan has marked. -/
theorem last_of_scan {state : Analysis} {task : Task} {start : Place} {here : Address} {offset : Nat}
    (tiled : Tiled decoder origin ⟨state, .scanning task start here offset⟩)
    (filled : start.offset < offset) :
    ∃ last, Stands decoder state.program start.image last ∧ last.stop = offset ∧
      last.flow.runsOn = true := by
  obtain ⟨instructions, tiles, ahead⟩ := tiled.scanned
  rcases List.eq_nil_or_concat instructions with rfl | ⟨leading, last, rfl⟩
  · exact absurd tiles.laid (Nat.ne_of_lt filled)
  · rw [List.concat_eq_append] at tiles ahead
    exact ⟨last, tiles.stand last (by simp), laid_last tiles.laid, ahead last (by simp)⟩

theorem closing_step (accounted : Accounted decoder origin before) (sound : Sound origin before)
    (tiled : Tiled decoder origin before) (audited : Audited origin before)
    (placed : decoder.Placed) (steady : decoder.Steady Instruction.length)
    (fits : ∀ task start here offset, before.activity = .scanning task start here offset →
      here.offset.toNat = offset)
    (step : Step decoder before after) : Closing decoder origin after.state after.activity := by
  have closing := accounted.closing
  cases step with
  | enter _ | derive _ _ _ _ | take _ _ | dismiss _ | consume _ | skip _ | note _ _ _ | cut _ _ _ _
  | close _ | record _ | forget _ => trivial
  | begin _ _ _ unknown => exact Marks.startsCode_of_unknown unknown
  | exhaust spent =>
      intro filled
      have last := last_of_scan tiled filled
      exact .inr ⟨last, .inl spent⟩
  | miss absent =>
      have inside := audited.pursued.1
      simp [Program.contains, absent] at inside
  | @refuse state task start here offset image code found refusal message =>
      intro filled
      have last := last_of_scan tiled filled
      refine .inr ⟨last, .inr ⟨?_, here, ?_, code, refusal.code_mem, reports_report ..⟩⟩
      · exact .of_refusal placed steady closing found refusal
      · exact (sound.owned.remarked.resolve here).symm.trans sound.located.2.1
  | @advance state task start here offset image instruction _ found decoded unattributed =>
      obtain ⟨-, behind⟩ := free_of_decoded placed found decoded unattributed
      have here := fits _ _ _ _ rfl
      unfold activityBehind
      split
      · rename_i exit ended
        exact fun _ => ended_of_onward ended (placed _ _ _ _ decoded).2.2
          (by dsimp only; rw [behind, here])
      · split
        · exact fun _ => trivial
        · rename_i idle
          exact Bool.eq_false_iff.mpr idle

end Accounted

/-- A finding does not speak of data, and where it speaks of an instruction that cannot be decoded
there is none. -/
def Honest (decoder : Decoder) (origin : Program) (target : Address) (code : Diagnostic.Code) : Prop :=
  code ≠ .ranIntoData ∧ (code = .invalidInstruction ∨ code = .brokenFixup →
    ∀ instruction, ¬Decodes decoder origin target instruction)

section Honest

variable {decoder : Decoder} {origin : Program} {before after : Moment}

/-- Without slots no byte becomes data. -/
theorem Owned.isData_eq_false {state : Analysis} {held : Place → Prop} {place : Place}
    (owned : Owned origin state held) (unknown : (origin.marksAt place).isUnknown = true)
    (untabled : state.slots = []) : (state.program.marksAt place).isData = false := by
  rcases owned.remarked.marks place with same | ⟨-, content, start, allowed, marked⟩
  · rw [same]
    exact (Marks.isUnknown_iff.mp unknown).2
  · rw [marked, Marks.isData_inRun]
    cases content with
    | code => rfl
    | padding => exact absurd rfl allowed
    | data =>
        have gains : origin.Gains state.program .data place :=
          ⟨unknown, by rw [marked, Marks.meets_inRun]; rfl⟩
        obtain ⟨slot, member, -⟩ := (owned.data place).mp gains
        simp [untabled] at member

theorem honest_of_finding {state : Analysis} {reference : Reference} {target place : Address}
    {location : Option Address} {code : Diagnostic.Code}
    (finding : Finding state.program reference target location code)
    (dataless : ∀ place, (state.program.marksAt place).isData = false) :
    Honest decoder origin place code := by
  cases finding with
  | data _ _ data => simp [dataless] at data
  | unresolved _ | outside _ _ | follower _ _ _ _ => exact ⟨by simp, by simp⟩

theorem honest_of_refusal {state : Analysis} {task : Task} {start : Place} {here : Address}
    {offset : Nat} {image : Image} {code : Diagnostic.Code}
    (sound : Sound origin ⟨state, .scanning task start here offset⟩) (blind : decoder.Blind)
    (dataless : ∀ place, (state.program.marksAt place).isData = false)
    (found : state.program.image? start.image = some image)
    (refusal : Refusal decoder image here offset code) : Honest decoder origin here code := by
  cases refusal with
  | @undecodable error failed =>
      refine ⟨by cases error <;> simp [decodeCode], fun _ instruction decodes => ?_⟩
      obtain ⟨place, other, reached, -, otherFound, decoded⟩ := decodes
      have located := sound.located.2.1
      rw [sound.owned.remarked.resolve, reached, Option.some.injEq] at located
      subst located
      obtain ⟨earlier, earlierFound, same⟩ := sound.owned.remarked.image_eq found
      obtain rfl := Option.some.inj (earlierFound.symm.trans otherFound)
      rw [← blind image earlier _ _ same, failed] at decoded
      cases decoded
  | overlap decoded overlap =>
      unfold overlapCode? at overlap
      split at overlap
      · cases overlap
      · split at overlap
        · rename_i data
          obtain ⟨byte, -, data⟩ := List.any_eq_true.mp data
          have none := dataless ⟨start.image, byte⟩
          rw [Program.marksAt, found] at none
          simp [none] at data
        · cases overlap
          exact ⟨by simp, by simp⟩

theorem honest_of_remark {state : Analysis} {instruction : Instruction} {here target : Address}
    {diagnostic : Diagnostic} (member : diagnostic ∈ state.remarks instruction here) :
    Honest decoder origin target diagnostic.code := by
  unfold remarks at member
  rcases List.mem_append.mp member with dynamic | wrapped
  · split at dynamic
    · rw [List.mem_singleton.mp dynamic]
      exact ⟨by simp [Diagnostic.found], by simp [Diagnostic.found]⟩
    · cases dynamic
  · split at wrapped
    · rw [List.mem_singleton.mp wrapped]
      exact ⟨by simp [Diagnostic.found], by simp [Diagnostic.found]⟩
    · cases wrapped

/-- All findings that have been reported are honest. -/
def Truthful (decoder : Decoder) (origin : Program) (state : Analysis) : Prop :=
  ∀ target code, state.Reports (some target) code → Honest decoder origin target code

theorem Truthful.step (truthful : Truthful decoder origin before.state) (sound : Sound origin before)
    (blind : decoder.Blind)
    (dataless : ∀ place, (before.state.program.marksAt place).isData = false)
    (works : Works decoder before after) : Truthful decoder origin after.state := by
  obtain ⟨step, busy⟩ := works
  rintro target code ⟨diagnostic, member, location, rfl⟩
  have earlier (known : diagnostic ∈ before.state.diagnostics) :
      Honest decoder origin target diagnostic.code :=
    truthful target _ ⟨diagnostic, known, location, rfl⟩
  cases step with
  | derive _ _ _ _ => exact absurd ⟨rfl, rfl⟩ busy
  | note points finding message =>
      rcases List.mem_append.mp member with known | new
      · exact earlier known
      · rw [List.mem_singleton.mp new]
        exact honest_of_finding finding dataless
  | refuse found refusal message =>
      rcases List.mem_append.mp member with known | new
      · exact earlier known
      · rw [List.mem_singleton.mp new] at location ⊢
        obtain rfl : _ = target := Option.some.inj location
        exact honest_of_refusal sound blind dataless found refusal
  | advance _ _ _ _ =>
      rcases List.mem_append.mp member with known | new
      · exact earlier known
      · exact honest_of_remark new
  | _ => exact earlier member

end Honest

end RealMode.Analysis
