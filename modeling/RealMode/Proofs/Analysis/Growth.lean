import RealMode.Proofs.Analysis.Calls

/-! What an analysis only ever adds to.

References and findings are written at the end of what is there, bytes that are known stay as they
are, and a block that is cut keeps its first part. -/

set_option autoImplicit false

namespace RealMode

/-- What cuts may leave at the start of a block. -/
inductive Block.Opens (whole : Block) : Block → Prop where
  | uncut : Opens whole whole
  | cut {cutoff : Nat} (above : whole.start < cutoff) (below : cutoff < whole.stop) :
      Opens whole (BlockIndex.head whole cutoff)

namespace Block.Opens

variable {whole part rest : Block}

theorem first (opens : whole.Opens part) : part.first = whole.first := by
  cases opens <;> rfl

theorem trans (outer : whole.Opens part) (inner : part.Opens rest) : whole.Opens rest := by
  cases outer with
  | uncut => exact inner
  | cut above below =>
      cases inner with
      | uncut => exact .cut above below
      | cut nextAbove nextBelow => exact .cut nextAbove (Nat.lt_trans nextBelow below)

end Block.Opens

namespace Analysis

theorem BlockChange.opens {before after : Moment} (change : BlockChange before after) {whole : Block}
    (member : whole ∈ before.state.blocks.blocks) :
    ∃ part ∈ after.state.blocks.blocks, whole.Opens part := by
  cases change with
  | none same => exact ⟨whole, same ▸ member, .uncut⟩
  | @cut _ _ start block _ _ _ _ cut =>
      by_cases same : whole = block
      · subst same
        exact ⟨_, (cut.mem_iff _).mpr (.inl rfl), .cut cut.above cut.below⟩
      · exact ⟨whole, (cut.mem_iff _).mpr (.inr (.inr ⟨member, same⟩)), .uncut⟩
  | grow _ grown => exact ⟨whole, (grown.mem_iff _).mpr (.inr member), .uncut⟩

/-- `after` has everything that `before` has. -/
structure Grows (before after : Analysis) : Prop where
  references : before.references.toList <+: after.references.toList
  diagnostics : before.diagnostics <+: after.diagnostics
  remarked : before.program.Remarked after.program
  blocks : ∀ whole ∈ before.blocks.blocks, ∃ part ∈ after.blocks.blocks, whole.Opens part

namespace Grows

theorem refl (state : Analysis) : state.Grows state :=
  ⟨List.prefix_rfl, List.prefix_rfl, .refl _, fun whole member => ⟨whole, member, .uncut⟩⟩

theorem trans {before middle after : Analysis} (first : before.Grows middle)
    (second : middle.Grows after) : before.Grows after := by
  refine ⟨first.references.trans second.references, first.diagnostics.trans second.diagnostics,
    first.remarked.trans second.remarked, fun whole member => ?_⟩
  obtain ⟨part, partMember, opens⟩ := first.blocks whole member
  obtain ⟨rest, restMember, more⟩ := second.blocks part partMember
  exact ⟨rest, restMember, opens.trans more⟩

theorem exists_first {before after : Analysis} (grows : before.Grows after) {place : Place}
    (starts : ∃ block ∈ before.blocks.blocks, block.first = place) :
    ∃ block ∈ after.blocks.blocks, block.first = place := by
  obtain ⟨whole, member, first⟩ := starts
  obtain ⟨part, partMember, opens⟩ := grows.blocks whole member
  exact ⟨part, partMember, opens.first.trans first⟩

end Grows

section Steps

variable {origin : Program} {decoder : Decoder} {before after : Moment}

theorem Step.references_prefix (step : Step decoder before after) :
    before.state.references.toList <+: after.state.references.toList := by
  cases step with
  | record _ =>
      rw [Graph.toList_add]
      exact List.prefix_append _ _
  | _ => exact List.prefix_rfl

theorem Step.diagnostics_prefix (step : Step decoder before after) :
    before.state.diagnostics <+: after.state.diagnostics := by
  cases step with
  | derive _ _ _ _ | note _ _ _ | refuse _ _ _ | advance _ _ _ _ => exact List.prefix_append _ _
  | _ => exact List.prefix_rfl

theorem Step.grows (sound : Sound origin before) (regular : origin.Regular) (placed : decoder.Placed)
    (step : Step decoder before after) : before.state.Grows after.state :=
  ⟨step.references_prefix, step.diagnostics_prefix, step.remarked placed,
    fun _ member => (sound.blocks_step regular step).opens member⟩

theorem Steps.grows (sound : Sound origin before) (regular : origin.Regular) (placed : decoder.Placed)
    (steps : Steps decoder before after) : before.state.Grows after.state := by
  induction steps with
  | refl => exact .refl _
  | tail earlier step ih =>
      have middle := sound.of_steps regular placed earlier
      exact ih.trans (step.grows middle regular placed)

end Steps

end Analysis

end RealMode
