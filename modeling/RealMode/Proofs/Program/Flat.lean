import RealMode.Proofs.Program.Target

/-! Programs in one segment.

Where a segment starts with its image, the address of a byte in that segment has the offset of the
byte. A branch that names its target within its own segment does not lead out of it. -/

set_option autoImplicit false

namespace RealMode

/-- Whether an operand gives no target for a branch, or one in the segment of the branch. -/
def Operand.isLocal (operand : Operand) : Bool :=
  match operand.kind, operand.patch with
  | .relative _, some _ => false
  | .pointer _ _, _ => false
  | _, _ => true

namespace Program

theorem referent_of_branchTarget? {program : Program} {instruction : Instruction}
    {source target : Address}
    (stays : ∀ operand, instruction.operands.head? = some operand → operand.isLocal = true)
    (points : program.branchTarget? instruction source = some target) :
    target.referent = source.referent := by
  unfold branchTarget? at points
  obtain ⟨⟨kind, patch⟩, first, points⟩ := Option.bind_eq_some_iff.mp points
  have stays := stays _ first
  cases kind with
  | relative offset =>
      cases patch with
      | none =>
          cases points
          rfl
      | some patch => cases stays
  | pointer selector offset => cases stays
  | memory _ _ _ _ | register _ | immediate _ _ | other => cases points

/-- The first segment starts with the first image, and no byte is known. -/
structure Flat (program : Program) : Prop where
  segment : ∃ segment, program.segment? 0 = some segment ∧ segment.image = 0 ∧ segment.start = 0
  unknown : ∀ place, (program.marksAt place).isUnknown = true

namespace Flat

variable {program : Program} {address : Address}

theorem resolve (flat : program.Flat) (home : address.referent = .segment 0) :
    program.resolve address = some ⟨0, address.offset.toNat⟩ := by
  obtain ⟨segment, found, image, start⟩ := flat.segment
  have base : program.base? (.segment 0) = some ⟨0, 0⟩ := by
    rw [base?, baseWithin?]
    simp [segmentBase?, found, image, start]
  simp [Program.resolve, home, base, Place.add]

theorem eq_of_resolve (flat : program.Flat) {other : Address} (home : address.referent = .segment 0)
    (alsoHome : other.referent = .segment 0)
    (same : program.resolve address = program.resolve other) : address = other := by
  rw [flat.resolve home, flat.resolve alsoHome] at same
  obtain ⟨referent, offset⟩ := address
  obtain ⟨otherReferent, otherOffset⟩ := other
  have equal : offset.toNat = otherOffset.toNat := (Place.mk.inj (Option.some.inj same)).2
  rw [Address.mk.injEq]
  exact ⟨home.trans alsoHome.symm, UInt16.toNat_inj.mp equal⟩

theorem startsCode (flat : program.Flat) (place : Place) :
    (program.marksAt place).startsCode = false :=
  Marks.startsCode_of_unknown (flat.unknown place)

end Flat

end Program

end RealMode
