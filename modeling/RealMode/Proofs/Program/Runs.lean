import RealMode.Proofs.Program.Remarking

/-! Instructions as runs of marked bytes.

The first byte of an instruction is a lead, and the bytes behind it that are code and no leads belong
to it. Bytes are marked in whole runs of unknown ones, so no such byte ever stands without code
before it, and what is behind an instruction never becomes a part of it. -/

set_option autoImplicit false

namespace RealMode

/-- The byte belongs to an instruction that starts before it. -/
def Marks.continues (marks : Marks) : Bool := marks.isCode && !marks.isLead

theorem Marks.isCode_of_continues {marks : Marks} (continues : marks.continues = true) :
    marks.isCode = true :=
  (Bool.and_eq_true_iff.mp continues).1

theorem Marks.continues_inRun (content : Content) (start index : Nat) :
    (inRun content start index).continues = (decide (content = .code) && !decide (index = start)) := by
  rw [continues, isLead_inRun]
  exact congrArg (· && !decide (index = start)) (meets_inRun content .code start index)

theorem Marks.isUnknown_of_isCode {marks : Marks} (code : marks.isCode = true) :
    marks.isUnknown = false := by
  have known : marks.meets Content.code.marks = true := code
  exact isUnknown_of_meets known

namespace Image

/-- Every byte that continues an instruction has code before it. -/
def Unbroken (image : Image) : Prop :=
  ∀ offset, (image.marksAt offset).continues = true →
    ∃ earlier, offset = earlier + 1 ∧ (image.marksAt earlier).isCode = true

theorem Unbroken.fresh (id : Nat) (name : String) (bytes : Array UInt8) :
    (Image.fresh id name bytes).Unbroken := by
  intro offset continues
  rw [marksAt_fresh] at continues
  cases continues

theorem Unbroken.painted {image : Image} (unbroken : image.Unbroken) {start length : Nat}
    (content : Content) (positive : 0 < length)
    (unknown : ∀ index, start ≤ index → index < start + length →
      (image.marksAt index).isUnknown = true) : (image.painted content start length).Unbroken := by
  intro offset continues
  rw [marksAt_painted_within content offset positive] at continues
  split at continues
  · rename_i inside
    simp only [Marks.continues_inRun, Bool.and_eq_true, decide_eq_true_eq, Bool.not_eq_true',
      decide_eq_false_iff_not] at continues
    obtain ⟨rfl, later⟩ := continues
    refine ⟨offset - 1, by omega, ?_⟩
    rw [marksAt_painted_within .code _ positive, if_pos (by omega)]
    exact Marks.meets_inRun .code .code start _
  -- The byte before one that is left alone is known, so it is left alone, too.
  · obtain ⟨earlier, rfl, code⟩ := unbroken offset continues
    refine ⟨earlier, rfl, ?_⟩
    rw [marksAt_painted_within content _ positive]
    split
    · rename_i inside
      have known := Marks.isUnknown_of_isCode code
      simp [unknown earlier inside.1 inside.2.1] at known
    · exact code

end Image

namespace Program

def Unbroken (program : Program) : Prop :=
  ∀ id image, program.image? id = some image → image.Unbroken

theorem Built.unbroken {program : Program} (built : program.Built) : program.Unbroken := by
  refine built.each (fun id name bytes => .fresh id name bytes)
    (fun id image content start length unbroken faultless => ?_) fun id image fixups holds => holds
  obtain ⟨positive, unknown⟩ := Image.unknown_of_markFault? faultless
  exact unbroken.painted content positive unknown

theorem Unbroken.isCode {program : Program} (unbroken : program.Unbroken) {image offset : Nat}
    (continues : (program.marksAt ⟨image, offset + 1⟩).continues = true) :
    (program.marksAt ⟨image, offset⟩).isCode = true := by
  rw [marksAt] at continues ⊢
  cases found : program.image? image with
  | none => simp [found, Marks.continues, Marks.isCode, Marks.meets, Marks.empty] at continues
  | some part =>
      rw [found] at continues
      obtain ⟨earlier, same, code⟩ := unbroken image part found (offset + 1) continues
      obtain rfl := Nat.succ.inj same
      exact code

theorem Unbroken.paint {program : Program} (unbroken : program.Unbroken) {place : Place}
    {length : Nat} (free : program.Free place length) (content : Content) :
    (program.paint content place length).Unbroken := by
  obtain ⟨positive, image, found, unattributed⟩ := free
  have each : program.Each fun _ image => image.Unbroken := unbroken
  refine each.modifyImage fun other same holds => ?_
  obtain rfl := Option.some.inj (found.symm.trans same)
  exact holds.painted content positive (Image.isUnattributed_iff.mp unattributed).2.2

/-- An instruction of `length` bytes starts at a place, and no byte behind it belongs to it. -/
structure Spans (program : Program) (place : Place) (length : Nat) : Prop where
  filled : 0 < length
  starts : (program.marksAt place).startsCode = true
  continues : ∀ offset, place.offset < offset → offset < place.offset + length →
    (program.marksAt ⟨place.image, offset⟩).continues = true
  ends : (program.marksAt ⟨place.image, place.offset + length⟩).continues = false

namespace Spans

variable {program : Program} {place other : Place} {length count : Nat} {content : Content}

theorem known (spans : program.Spans place length) (inside : other.InRun place length) :
    (program.marksAt other).isUnknown = false := by
  obtain ⟨sameImage, low, high⟩ := inside
  apply Marks.isUnknown_of_isCode
  rcases Nat.eq_or_lt_of_le low with first | later
  · have same : other = place := Place.eq_of_inRun ⟨sameImage, low, high⟩ first.symm
    rw [same]
    exact Marks.isCode_of_startsCode spans.starts
  · obtain ⟨image, offset⟩ := other
    dsimp only at sameImage
    subst sameImage
    exact Marks.isCode_of_continues (spans.continues offset later high)

/-- An instruction that has been marked spans what it has been given. -/
theorem of_paint (unbroken : program.Unbroken) (free : program.Free place length) :
    (program.paint .code place length).Spans place length where
  filled := free.1
  starts := by simp [free.startsCode_paint]
  continues offset low high := by
    have inside : Place.InRun ⟨place.image, offset⟩ place length := ⟨rfl, Nat.le_of_lt low, high⟩
    rw [free.marksAt_paint, if_pos inside, Marks.continues_inRun]
    simp [Nat.ne_of_gt low]
  ends := by
    have outside : ¬Place.InRun ⟨place.image, place.offset + length⟩ place length :=
      fun inside => Nat.lt_irrefl _ inside.2.2
    rw [free.marksAt_paint, if_neg outside, Bool.eq_false_iff]
    intro continues
    -- The last byte of the instruction would have been code before.
    obtain ⟨shorter, rfl⟩ := Nat.exists_eq_succ_of_ne_zero (Nat.ne_of_gt free.1)
    have code : (program.marksAt ⟨place.image, place.offset + shorter⟩).isCode = true :=
      unbroken.isCode continues
    have unknown : (program.marksAt ⟨place.image, place.offset + shorter⟩).isUnknown = true :=
      free.unknown ⟨rfl, Nat.le_add_right _ _, Nat.lt_succ_self _⟩
    simp [Marks.isUnknown_of_isCode code] at unknown

/-- What is marked later leaves an instruction as it is. -/
theorem paint (spans : program.Spans place length) (free : program.Free other count) :
    (program.paint content other count).Spans place length := by
  have kept (byte : Place) (known : (program.marksAt byte).isUnknown = false) :
      (program.paint content other count).marksAt byte = program.marksAt byte := by
    rw [free.marksAt_paint, if_neg]
    intro inside
    simp [free.unknown inside] at known
  refine ⟨spans.filled, ?_, fun offset low high => ?_, ?_⟩
  · rw [kept place (Marks.isUnknown_of_isCode (Marks.isCode_of_startsCode spans.starts))]
    exact spans.starts
  · have continues := spans.continues offset low high
    rw [kept _ (Marks.isUnknown_of_isCode (Marks.isCode_of_continues continues))]
    exact continues
  · rw [free.marksAt_paint]
    split
    · rename_i inside
      -- A run that holds the byte behind the instruction starts there: the one before is known.
      have first : place.offset + length = other.offset := by
        obtain ⟨sameImage, low, high⟩ := inside
        rcases Nat.eq_or_lt_of_le low with first | earlier
        · exact first.symm
        · dsimp only at earlier high
          have filled := spans.filled
          let last : Place := ⟨place.image, place.offset + length - 1⟩
          have known : (program.marksAt last).isUnknown = false :=
            spans.known ⟨rfl, by dsimp only [last]; omega, by dsimp only [last]; omega⟩
          have unknown : (program.marksAt last).isUnknown = true :=
            free.unknown ⟨sameImage, by dsimp only [last]; omega, by dsimp only [last]; omega⟩
          simp [known] at unknown
      simp [Marks.continues_inRun, first]
    · exact spans.ends

end Spans

end Program

end RealMode
