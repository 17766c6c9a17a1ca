import RealMode.JumpTable
import RealMode.Proofs.Program.Remarking

/-! Targets of branches while bytes become known.

Fix-ups, branches and tables are resolved through the tables of a program, never through marks. -/

set_option autoImplicit false

namespace RealMode

/-- Displaced addresses count from the same referent, and their offsets add up without a wrap. -/
theorem Address.move?_eq_some_iff {address moved : Address} {delta : Int} :
    address.move? delta = some moved ↔
      moved.referent = address.referent ∧ (moved.offset.toNat : Int) = address.offset.toNat + delta := by
  have bound := moved.offset.toNat_lt
  unfold move?
  dsimp only
  split
  · rename_i fits
    have small : ((address.offset.toNat : Int) + delta).toNat < 65536 := by omega
    have word : (UInt16.ofNat ((address.offset.toNat : Int) + delta).toNat).toNat =
        ((address.offset.toNat : Int) + delta).toNat := UInt16.toNat_ofNat_of_lt' small
    constructor
    · rintro ⟨⟩
      exact ⟨rfl, by dsimp only; omega⟩
    · rintro ⟨referent, offset⟩
      obtain ⟨other, value⟩ := moved
      dsimp only at referent offset
      subst referent
      rw [Option.some.injEq, Address.mk.injEq]
      exact ⟨rfl, UInt16.toNat_inj.mp (by omega)⟩
  · rename_i wraps
    refine iff_of_false (by simp) ?_
    rintro ⟨-, offset⟩
    omega

namespace Program

theorem base?_blank (program : Program) (referent : Referent) :
    program.blank.base? referent = program.base? referent :=
  program.baseWithin?_blank program.externals.length referent

theorem settle?_blank (program : Program) (rounds : Nat) (address : Address) :
    program.blank.settle? rounds address = program.settle? rounds address := by
  induction rounds generalizing address with
  | zero => rfl
  | succ rounds ih =>
      rw [settle?, settle?]
      split
      · simp only [ih]
        rfl
      · rfl

theorem fixupAddress?_blank (program : Program) (fixup : Fixup) :
    program.blank.fixupAddress? fixup = program.fixupAddress? fixup := by
  simp only [fixupAddress?, targetAddress?, reframe?, base?_blank, settle?_blank, resolve_blank]

theorem branchTarget?_blank (program : Program) (instruction : Instruction) (source : Address) :
    program.blank.branchTarget? instruction source = program.branchTarget? instruction source := by
  simp only [branchTarget?, fixupAddress?_blank, base?_blank]

/-- The word at a place. -/
def word? (program : Program) (place : Place) : Option UInt16 :=
  (program.image? place.image).bind (·.word? place.offset)

theorem word?_blank (program : Program) (place : Place) :
    program.blank.word? place = program.word? place := by
  simp only [word?, image?_blank]
  cases program.image? place.image <;> rfl

end Program

theorem JumpTable.word?_of_value? {program : Program} {slot : Place} {value : UInt16}
    (read : value? program slot = some value) : program.word? slot = some value := by
  unfold value? at read
  unfold Program.word?
  cases found : program.image? slot.image with
  | none => simp [found] at read
  | some image =>
      simp only [found, Option.bind_eq_bind, Option.bind_some] at read
      split at read
      · exact read
      · cases read

theorem JumpTable.start?_blank (program : Program) (instruction : Instruction) (source : Address) :
    start? program.blank instruction source = start? program instruction source := by
  simp only [start?, Program.fixupAddress?_blank, Program.resolve_blank]

namespace Program.Remarked

variable {before after : Program}

theorem branchTarget? (remarked : before.Remarked after) (instruction : Instruction)
    (source : Address) :
    after.branchTarget? instruction source = before.branchTarget? instruction source := by
  rw [← branchTarget?_blank after, remarked.blank, branchTarget?_blank]

theorem word? (remarked : before.Remarked after) (place : Place) :
    after.word? place = before.word? place := by
  rw [← word?_blank after, remarked.blank, word?_blank]

theorem tableStart? (remarked : before.Remarked after) (instruction : Instruction)
    (source : Address) :
    JumpTable.start? after instruction source = JumpTable.start? before instruction source := by
  rw [← JumpTable.start?_blank after, remarked.blank, JumpTable.start?_blank]

end Program.Remarked

end RealMode
