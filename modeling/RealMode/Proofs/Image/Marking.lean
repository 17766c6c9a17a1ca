import RealMode.Image

/-! What marking a run of bytes does to an image.

A run that is marked must be unknown. Its first byte becomes the lead, the others follow it, and
no other byte changes. -/

set_option autoImplicit false

namespace RealMode

namespace Marks

theorem meets_union (marks left right : Marks) :
    marks.meets (left.union right) = (marks.meets left || marks.meets right) := by
  have distributed : marks.bits &&& (left.bits ||| right.bits) =
      (marks.bits &&& left.bits) ||| (marks.bits &&& right.bits) :=
    UInt8.eq_of_toBitVec_eq (by simp [BitVec.and_or_distrib_left])
  simp only [meets, union, distributed]
  rw [Bool.eq_iff_iff]
  simp only [bne_iff_ne, Bool.or_eq_true, ne_eq, UInt8.or_eq_zero_iff]
  exact Decidable.not_and_iff_or_not

theorem isUnknown_iff {marks : Marks} :
    marks.isUnknown = true ↔ marks.isCode = false ∧ marks.isData = false := by
  simp only [isUnknown, isCode, isData, meets_union, Bool.not_eq_true', Bool.or_eq_false_iff]

theorem isUnknown_of_meets {marks : Marks} {content : Content}
    (known : marks.meets content.marks = true) : marks.isUnknown = false := by
  cases content <;> simp_all [isUnknown, Content.marks, meets_union]

theorem isCode_of_startsCode {marks : Marks} (starts : marks.startsCode = true) :
    marks.isCode = true :=
  (Bool.and_eq_true_iff.mp starts).1

theorem startsCode_of_unknown {marks : Marks} (unknown : marks.isUnknown = true) :
    marks.startsCode = false := by
  rw [startsCode, (isUnknown_iff.mp unknown).1, Bool.false_and]

/-- The marks of the byte at `index` in a run that starts at `start`. -/
def inRun (content : Content) (start index : Nat) : Marks :=
  if index = start then content.marks.union lead else content.marks

theorem isUnknown_inRun (content : Content) (start index : Nat) :
    (inRun content start index).isUnknown = false := by
  unfold inRun
  split <;> cases content <;> decide

theorem meets_inRun (content other : Content) (start index : Nat) :
    (inRun content start index).meets other.marks = decide (content = other) := by
  unfold inRun
  split <;> cases content <;> cases other <;> decide

theorem isLead_inRun (content : Content) (start index : Nat) :
    (inRun content start index).isLead = decide (index = start) := by
  unfold inRun
  split <;> rename_i first <;> simp only [first] <;> cases content <;> decide

theorem isData_inRun (content : Content) (start index : Nat) :
    (inRun content start index).isData = decide (content ≠ .code) := by
  unfold inRun
  split <;> cases content <;> decide

theorem startsCode_inRun (content : Content) (start index : Nat) :
    (inRun content start index).startsCode =
      (decide (content = .code) && decide (index = start)) := by
  rw [startsCode, isLead_inRun]
  exact congrArg (· && decide (index = start)) (meets_inRun content .code start index)

end Marks

namespace Image

theorem size_paint (marks : Array Marks) (value : Marks) (start count : Nat) :
    (paint marks value start count).size = marks.size := by
  induction count generalizing marks start with
  | zero => rfl
  | succ count ih => rw [paint, ih, Array.size_setIfInBounds]

theorem getElem?_paint (marks : Array Marks) (value : Marks) (start count index : Nat) :
    (paint marks value start count)[index]? =
      if start ≤ index ∧ index < start + count ∧ index < marks.size then some value
      else marks[index]? := by
  induction count generalizing marks start with
  | zero => rw [paint, if_neg (by omega)]
  | succ count ih =>
      rw [paint, ih, Array.size_setIfInBounds, Array.getElem?_setIfInBounds]
      grind

@[simp] theorem size_marks_painted (image : Image) (content : Content) (start length : Nat) :
    (image.painted content start length).marks.size = image.marks.size := by
  simp [painted, size_paint]

theorem marksAt_fresh (id : Nat) (name : String) (bytes : Array UInt8) (offset : Nat) :
    (Image.fresh id name bytes).marksAt offset = .empty := by
  simp only [marksAt, Image.fresh, Array.getElem?_replicate]
  split <;> rfl

theorem marksAt_painted_within {image : Image} {start length : Nat} (content : Content) (index : Nat)
    (positive : 0 < length) :
    (image.painted content start length).marksAt index =
      if start ≤ index ∧ index < start + length ∧ index < image.marks.size then
        .inRun content start index
      else image.marksAt index := by
  simp only [marksAt, painted, getElem?_paint, Array.size_setIfInBounds,
    Array.getElem?_setIfInBounds, Marks.inRun]
  grind

theorem marksAt_painted {image : Image} {start length : Nat} (content : Content) (index : Nat)
    (positive : 0 < length) (fits : start + length ≤ image.marks.size) :
    (image.painted content start length).marksAt index =
      if start ≤ index ∧ index < start + length then .inRun content start index
      else image.marksAt index := by
  rw [marksAt_painted_within content index positive]
  grind

theorem unknownRun_iff {image : Image} {start count : Nat} :
    image.unknownRun start count = true ↔
      ∀ index, start ≤ index → index < start + count → (image.marksAt index).isUnknown = true := by
  induction count generalizing start with
  | zero => simp only [unknownRun, true_iff]; omega
  | succ count ih =>
      rw [unknownRun, Bool.and_eq_true, ih]
      constructor
      · rintro ⟨first, rest⟩ index above below
        rcases Nat.eq_or_lt_of_le above with rfl | above
        · exact first
        · exact rest index above (by omega)
      · intro all
        exact ⟨all start (Nat.le_refl start) (by omega),
          fun index above below => all index (by omega) (by omega)⟩

theorem isUnattributed_iff {image : Image} {start stop : Nat} :
    image.isUnattributed start stop = true ↔ stop ≤ image.marks.size ∧ start ≤ stop ∧
      ∀ index, start ≤ index → index < stop → (image.marksAt index).isUnknown = true := by
  simp only [isUnattributed, Bool.and_eq_true, decide_eq_true_eq, unknownRun_iff, and_assoc]
  refine and_congr_right fun _ => and_congr_right fun order => ?_
  rw [Nat.add_sub_cancel' order]

theorem firstMarked?_eq_none_iff {image : Image} {start count : Nat} :
    image.firstMarked? start count = none ↔ image.unknownRun start count = true := by
  induction count generalizing start with
  | zero => simp [firstMarked?, unknownRun]
  | succ count ih =>
      rw [firstMarked?, unknownRun, Bool.and_eq_true]
      split
      · rename_i unknown
        rw [ih, and_iff_right unknown]
      · rename_i known
        simp [known]

theorem firstMarked?_eq_some_iff {image : Image} {start count first : Nat} :
    image.firstMarked? start count = some first ↔
      start ≤ first ∧ first < start + count ∧ (image.marksAt first).isUnknown = false ∧
        ∀ index, start ≤ index → index < first → (image.marksAt index).isUnknown = true := by
  induction count generalizing start with
  | zero =>
      simp only [firstMarked?, reduceCtorEq, false_iff]
      omega
  | succ count ih =>
      rw [firstMarked?]
      split
      · rename_i unknown
        rw [ih]
        constructor
        · rintro ⟨above, below, known, before⟩
          refine ⟨by omega, by omega, known, fun index low high => ?_⟩
          rcases Nat.eq_or_lt_of_le low with rfl | later
          · exact unknown
          · exact before index later high
        · rintro ⟨above, below, known, before⟩
          have later : start ≠ first := by
            rintro rfl
            simp [unknown] at known
          exact ⟨by omega, by omega, known, fun index low high => before index (by omega) high⟩
      · rename_i known
        rw [Option.some.injEq]
        constructor
        · rintro rfl
          exact ⟨Nat.le_refl _, by omega, by simpa using known, fun index low high => by omega⟩
        · rintro ⟨above, -, -, before⟩
          rcases Nat.eq_or_lt_of_le above with same | later
          · exact same
          · exact absurd (before start (Nat.le_refl _) later) known

theorem mark_eq_ok {image marked : Image} {content : Content} {start length : Nat}
    (succeeded : image.mark content start length = .ok marked) :
    image.markFault? start length = none ∧ marked = image.painted content start length := by
  unfold mark at succeeded
  split at succeeded
  · cases succeeded
  · rename_i faultless
    exact ⟨faultless, (Attempt.ok.inj succeeded).symm⟩

theorem mark_keeps (image : Image) (content : Content) (start length : Nat) :
    (image.mark content start length).Keeps image := by
  unfold mark
  split
  · exact .error ..
  · exact .ok ..

/-- What can be marked is a run of unknown bytes. -/
theorem unknown_of_markFault? {image : Image} {start length : Nat}
    (faultless : image.markFault? start length = none) :
    0 < length ∧
      ∀ index, start ≤ index → index < start + length → (image.marksAt index).isUnknown = true := by
  unfold markFault? at faultless
  dsimp only at faultless
  split at faultless
  · cases faultless
  · rename_i allowed
    rw [Option.map_eq_none_iff, firstMarked?_eq_none_iff, unknownRun_iff] at faultless
    exact ⟨by omega, faultless⟩

/-- Unknown bytes inside an image can be marked. -/
theorem markFault?_eq_none_of_fits {image : Image} {start length : Nat} (positive : 0 < length)
    (fits : start + length ≤ image.size) (unknown : image.unknownRun start length = true) :
    image.markFault? start length = none := by
  have inside : ¬(length = 0 ∨ image.size < min (start + length) offsetLimit) := by omega
  rw [markFault?, if_neg inside, firstMarked?_eq_none_iff.mpr unknown]
  rfl

theorem markFault?_eq_none {image : Image} {start length : Nat}
    (covered : image.marks.size = image.size) (positive : 0 < length)
    (free : image.isUnattributed start (start + length) = true) :
    image.markFault? start length = none := by
  obtain ⟨fits, -, unknown⟩ := isUnattributed_iff.mp free
  exact markFault?_eq_none_of_fits positive (covered ▸ fits) (unknownRun_iff.mpr unknown)

/-- In an image that a word can address, a run that is empty or leaves the image has no valid range, and any
other run can be marked if none of its bytes has been. -/
theorem markFault?_cases {image : Image} (addressable : image.size < offsetLimit) (start length : Nat) :
    (length = 0 ∨ image.size < start + length) ∧ image.markFault? start length =
        some (.invalidRange start (min (start + length) offsetLimit) image.size) ∨
      (0 < length ∧ start + length ≤ image.size) ∧
        image.markFault? start length = (image.firstMarked? start length).map .alreadyAttributed := by
  unfold markFault?
  dsimp only
  split
  · exact .inl ⟨by omega, rfl⟩
  · exact .inr ⟨by omega, rfl⟩

end Image

end RealMode
