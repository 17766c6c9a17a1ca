import RealMode.Proofs.Analysis.Step

/-! What the search for blocks leaves alone.

The search reads the settings and writes down its entry points. It does not touch the results of
the phases behind it. -/

set_option autoImplicit false

namespace RealMode.Analysis

/-- The parts of an analysis that no task changes. -/
def standing (state : Analysis) :
    Settings × List EntryPoint × ProcedureTable × FlowGraph × List DataItem :=
  (state.settings, state.entries, state.procedures, state.flow, state.items)

theorem standing_andThen {outcome : Outcome} {next : Analysis → Outcome}
    (kept : ∀ state, (next state).state.standing = state.standing) :
    (outcome.andThen next).state.standing = outcome.state.standing := by
  unfold Outcome.andThen
  split
  · exact kept outcome.state
  · rfl

theorem standing_splitAt (state : Analysis) (place : Place) :
    (state.splitAt place).state.standing = state.standing := by
  unfold splitAt
  split
  · split
    · rfl
    · split <;> rfl
  · rfl

theorem standing_addBlock (state : Analysis) (block : Block) :
    (state.addBlock block).state.standing = state.standing := by
  unfold addBlock
  split <;> rfl

theorem standing_record (state : Analysis) (reference : Reference) :
    (state.record reference).state.standing = state.standing := by
  unfold record
  split <;> rfl

theorem standing_closeBlock (scanned : Scanned) (start : Place) :
    (closeBlock scanned start).state.standing = scanned.state.standing := by
  unfold closeBlock
  split
  · rfl
  · refine (standing_andThen fun state => ?_).trans ?_
    · split
      · rfl
      · exact standing_addBlock ..
    · split
      · exact standing_splitAt ..
      · rfl

def Visit.state : Visit → Analysis
  | .refused state | .left state _ _ | .passed state _ _ | .failed state _ => state

theorem standing_visit (decoder : Decoder) (state : Analysis) (image : Nat) (here : Address)
    (offset : Nat) : (visit decoder state image here offset).state.standing = state.standing := by
  unfold visit
  split
  · rfl
  · split
    · rfl
    · split
      · rfl
      · split
        · rfl
        · rw [depart_eq]
          split <;> rfl

theorem standing_scan (decoder : Decoder) (image budget : Nat) (state : Analysis) (here : Address)
    (offset : Nat) :
    (scan decoder image budget state here offset).state.standing = state.standing := by
  induction budget generalizing state here offset with
  | zero => rfl
  | succ budget ih =>
      have visited := standing_visit decoder state image here offset
      rw [scan]
      cases seen : visit decoder state image here offset with
      | refused after | left after stop exit | failed after fault =>
          rw [seen] at visited
          exact visited
      | passed after next stop =>
          rw [seen] at visited
          dsimp only
          split
          · exact visited
          · exact (ih ..).trans visited

theorem standing_follow (decoder : Decoder) (state : Analysis) (reference : Reference)
    (target : Address) :
    (follow decoder state reference target).state.standing = state.standing := by
  unfold follow
  dsimp only
  split
  · rfl
  · split
    · unfold explore
      dsimp only
      split
      · rfl
      · split
        · split
          · exact standing_splitAt ..
          · rfl
        · exact (standing_closeBlock ..).trans (standing_scan ..)
    · rfl

theorem standing_process (decoder : Decoder) (state : Analysis) (task : Task) :
    (process decoder state task).state.standing = state.standing := by
  unfold process
  split
  · rcases state.readSlot_eq task.reference with ⟨-, same⟩ | ⟨_, _, -, consumed⟩
    · rw [same]
      rfl
    · rw [consumed]
      rfl
  · refine (standing_andThen fun followed => ?_).trans ?_
    · split
      · exact standing_record ..
      · rfl
    · split
      · rfl
      · exact standing_follow ..

theorem standing_drain (decoder : Decoder) (budget : Nat) (state : Analysis) :
    (drain decoder budget state).state.standing = state.standing := by
  induction budget generalizing state with
  | zero => rfl
  | succ budget ih =>
      rw [drain]
      split
      · rfl
      · rename_i task rest _
        have processed := standing_process decoder { state with pending := rest } task
        split
        · rfl
        · dsimp only
          split
          · exact (ih _).trans processed
          · exact processed

/-- A search adds its entry points to those of the analysis and leaves all results as they were. -/
theorem standing_findBlocks (decoder : Decoder) (state : Analysis) (entries : List EntryPoint) :
    (findBlocks decoder state entries).state.standing =
      (state.settings, state.entries ++ entries, state.procedures, state.flow, state.items) := by
  rw [findBlocks, standing_drain, enter_eq]
  rfl

section Fresh

variable (decoder : Decoder) (program : Program) (settings : Settings) (entries : List EntryPoint)

theorem settings_findBlocks_fresh :
    (findBlocks decoder (.fresh program settings) entries).state.settings = settings :=
  congrArg (·.1) (standing_findBlocks decoder (.fresh program settings) entries)

theorem entries_findBlocks_fresh :
    (findBlocks decoder (.fresh program settings) entries).state.entries = entries :=
  congrArg (·.2.1) (standing_findBlocks decoder (.fresh program settings) entries)

theorem flow_findBlocks_fresh :
    (findBlocks decoder (.fresh program settings) entries).state.flow = .empty :=
  congrArg (·.2.2.2.1) (standing_findBlocks decoder (.fresh program settings) entries)

end Fresh

end RealMode.Analysis
