import Mathlib.Data.List.Nodup
import RealMode.Program.Resolve
import RealMode.Proofs.Program.Construction

/-! Programs whose bytes become known.

Analysis changes nothing in a program but marks, and it marks unknown bytes only. So whatever does
not look at marks stays as it was, and what is known of a byte stays known. -/

set_option autoImplicit false

namespace RealMode

/-- `place` is one of the `length` bytes from `start` on. -/
def Place.InRun (place start : Place) (length : Nat) : Prop :=
  place.image = start.image ∧ start.offset ≤ place.offset ∧ place.offset < start.offset + length

instance (place start : Place) (length : Nat) : Decidable (place.InRun start length) :=
  inferInstanceAs (Decidable (_ ∧ _ ∧ _))

theorem Place.eq_of_inRun {place start : Place} {length : Nat} (inside : place.InRun start length)
    (first : place.offset = start.offset) : place = start := by
  cases place
  cases start
  simp_all [InRun]

/-- The image without what is known of its bytes. -/
def Image.blank (image : Image) : Image :=
  { image with marks := Array.replicate image.marks.size .empty }

theorem Image.blank_painted (image : Image) (content : Content) (start length : Nat) :
    (image.painted content start length).blank = image.blank := by
  simp [blank, painted, size_paint]

namespace Program

/-- The program without what is known of its bytes. -/
def blank (program : Program) : Program :=
  { program with images := program.images.map Image.blank }

theorem image?_blank (program : Program) (id : Nat) :
    program.blank.image? id = (program.image? id).map Image.blank := by
  simp [blank, image?]

theorem baseWithin?_blank (program : Program) (depth : Nat) (referent : Referent) :
    program.blank.baseWithin? depth referent = program.baseWithin? depth referent := by
  -- Externals resolve through public symbols, so the depth goes down along with the referent.
  induction depth generalizing referent with
  | zero => cases referent <;> rfl
  | succ depth ih =>
      cases referent with
      | segment id => rfl
      | group id => rfl
      | frame selector => rfl
      | external id =>
          simp only [baseWithin?, ih]
          rfl

theorem resolve_blank (program : Program) (address : Address) :
    program.blank.resolve address = program.resolve address := by
  simp only [resolve, base?, baseWithin?_blank]
  rfl

theorem contains_blank (program : Program) (place : Place) :
    program.blank.contains place = program.contains place := by
  simp only [contains, image?_blank]
  cases program.image? place.image <;> rfl

/-- `after` is `before` with some unknown bytes marked as code or data. -/
structure Remarked (before after : Program) : Prop where
  blank : after.blank = before.blank
  marks : ∀ place, after.marksAt place = before.marksAt place ∨
    (before.marksAt place).isUnknown = true ∧ ∃ content start,
      content ≠ .padding ∧ after.marksAt place = .inRun content start place.offset

namespace Remarked

variable {before after : Program}

theorem refl (program : Program) : program.Remarked program := ⟨rfl, fun _ => .inl rfl⟩

theorem marksAt_of_known (remarked : before.Remarked after) {place : Place}
    (known : (before.marksAt place).isUnknown = false) :
    after.marksAt place = before.marksAt place := by
  rcases remarked.marks place with same | ⟨unknown, -⟩
  · exact same
  · simp [unknown] at known

theorem unknown_of_unknown (remarked : before.Remarked after) {place : Place}
    (unknown : (after.marksAt place).isUnknown = true) :
    (before.marksAt place).isUnknown = true := by
  rcases remarked.marks place with same | ⟨earlier, -⟩
  · rwa [same] at unknown
  · exact earlier

theorem trans {last : Program} (first : before.Remarked after) (second : after.Remarked last) :
    before.Remarked last := by
  refine ⟨second.blank.trans first.blank, fun place => ?_⟩
  rcases first.marks place with same | ⟨unknown, content, start, allowed, marked⟩
  · rw [← same]
    exact second.marks place
  · right
    have known : (after.marksAt place).isUnknown = false := by
      rw [marked, Marks.isUnknown_inRun]
    exact ⟨unknown, content, start, allowed, (second.marksAt_of_known known).trans marked⟩

theorem resolve (remarked : before.Remarked after) (address : Address) :
    after.resolve address = before.resolve address := by
  rw [← resolve_blank after, remarked.blank, resolve_blank]

theorem contains (remarked : before.Remarked after) (place : Place) :
    after.contains place = before.contains place := by
  rw [← contains_blank after, remarked.blank, contains_blank]

theorem image? (remarked : before.Remarked after) (id : Nat) :
    (after.image? id).map Image.blank = (before.image? id).map Image.blank := by
  rw [← image?_blank, remarked.blank, image?_blank]

theorem image_eq (remarked : before.Remarked after) {id : Nat} {image : Image}
    (found : after.image? id = some image) :
    ∃ earlier, before.image? id = some earlier ∧ image.blank = earlier.blank := by
  have same := remarked.image? id
  rw [found, Option.map_some] at same
  obtain ⟨earlier, earlierFound, equal⟩ := Option.map_eq_some_iff.mp same.symm
  exact ⟨earlier, earlierFound, equal.symm⟩

theorem exists_image (remarked : before.Remarked after) {id : Nat} {image : Image}
    (found : before.image? id = some image) :
    ∃ later, after.image? id = some later ∧ later.blank = image.blank := by
  have same := remarked.image? id
  rw [found, Option.map_some] at same
  exact Option.map_eq_some_iff.mp same

theorem isUnattributed (remarked : before.Remarked after) {id start stop : Nat} {image earlier : Image}
    (found : after.image? id = some image) (earlierFound : before.image? id = some earlier)
    (unattributed : image.isUnattributed start stop = true) :
    earlier.isUnattributed start stop = true := by
  have same := remarked.image? id
  rw [found, earlierFound, Option.map_some, Option.map_some, Option.some.injEq] at same
  have sameSize : image.marks.size = earlier.marks.size := by
    simpa [Image.blank] using congrArg (·.marks.size) same
  obtain ⟨fits, order, unknown⟩ := Image.isUnattributed_iff.mp unattributed
  refine Image.isUnattributed_iff.mpr ⟨sameSize ▸ fits, order, fun index low high => ?_⟩
  have later : (after.marksAt ⟨id, index⟩).isUnknown = true := by
    rw [marksAt, found]
    exact unknown index low high
  have before := remarked.unknown_of_unknown later
  rw [marksAt, earlierFound] at before
  exact before

theorem regular (remarked : before.Remarked after) (wellBuilt : before.Regular) : after.Regular := by
  intro id image found
  obtain ⟨earlier, earlierFound, same⟩ := remarked.image_eq found
  obtain ⟨number, covered⟩ := wellBuilt id earlier earlierFound
  have sameMarks : image.marks.size = earlier.marks.size := by
    simpa [Image.blank] using congrArg (·.marks.size) same
  have sameSize : image.blank.size = earlier.blank.size := congrArg Image.size same
  have sameNumber : image.blank.id = earlier.blank.id := congrArg Image.id same
  exact ⟨sameNumber.trans number, (sameMarks.trans covered).trans sameSize.symm⟩

end Remarked

/-- The byte at `place` was unknown before and is known to hold `content` now. -/
def Gains (before after : Program) (content : Content) (place : Place) : Prop :=
  (before.marksAt place).isUnknown = true ∧ (after.marksAt place).meets content.marks = true

theorem Gains.mono {before after last : Program} {content : Content} {place : Place}
    (gains : before.Gains after content place) (remarked : after.Remarked last) :
    before.Gains last content place := by
  obtain ⟨unknown, known⟩ := gains
  rw [← remarked.marksAt_of_known (Marks.isUnknown_of_meets known)] at known
  exact ⟨unknown, known⟩

/-- A byte that has become known is code or data, and not both. -/
theorem Remarked.gains_of_known {before after : Program} (remarked : before.Remarked after)
    {place : Place} (unknown : (before.marksAt place).isUnknown = true)
    (known : (after.marksAt place).isUnknown = false) :
    ∃ content, content ≠ .padding ∧
      ∀ other, before.Gains after other place ↔ other = content := by
  rcases remarked.marks place with same | ⟨-, content, start, allowed, marked⟩
  · rw [same, unknown] at known
    cases known
  · refine ⟨content, allowed, fun other => ?_⟩
    rw [Gains, marked, Marks.meets_inRun, and_iff_right unknown, decide_eq_true_eq]
    exact eq_comm

theorem Remarked.startsCode_of_isData {before after : Program} (remarked : before.Remarked after)
    {place : Place} (unknown : (before.marksAt place).isUnknown = true)
    (data : (after.marksAt place).isData = true) : (after.marksAt place).startsCode = false := by
  rcases remarked.marks place with same | ⟨-, content, start, -, marked⟩
  · rw [same, (Marks.isUnknown_iff.mp unknown).2] at data
    cases data
  · rw [marked, Marks.isData_inRun, decide_eq_true_eq] at data
    rw [marked, Marks.startsCode_inRun, decide_eq_false data, Bool.false_and]

/-- The `length` bytes from a place on lie in an image and are unknown. -/
def Free (program : Program) (place : Place) (length : Nat) : Prop :=
  0 < length ∧ ∃ image, program.image? place.image = some image ∧
    image.isUnattributed place.offset (place.offset + length) = true

/-- The program with `length` bytes from a place on marked as one run. -/
def paint (program : Program) (content : Content) (place : Place) (length : Nat) : Program :=
  program.modifyImage place.image (·.painted content place.offset length)

namespace Free

variable {program : Program} {place other : Place} {length : Nat}

theorem unknown (free : program.Free place length) (inside : other.InRun place length) :
    (program.marksAt other).isUnknown = true := by
  obtain ⟨-, image, found, unattributed⟩ := free
  obtain ⟨same, above, below⟩ := inside
  rw [marksAt, same, found]
  exact (Image.isUnattributed_iff.mp unattributed).2.2 other.offset above below

theorem inRun_self (free : program.Free place length) : place.InRun place length :=
  ⟨rfl, Nat.le_refl place.offset, Nat.lt_add_of_pos_right free.1⟩

theorem contains (free : program.Free place length) (regular : program.Regular) :
    program.contains place = true := by
  obtain ⟨positive, image, found, unattributed⟩ := free
  have fits := (Image.isUnattributed_iff.mp unattributed).1
  have inside : place.offset < image.size := by
    rw [← regular.covered found]
    omega
  simp [Program.contains, found, Image.contains, inside]

theorem marksAt_paint (free : program.Free place length) (content : Content) (other : Place) :
    (program.paint content place length).marksAt other =
      if other.InRun place length then .inRun content place.offset other.offset
      else program.marksAt other := by
  obtain ⟨positive, image, found, unattributed⟩ := free
  have fits := (Image.isUnattributed_iff.mp unattributed).1
  by_cases same : other.image = place.image
  · have lookup : program.image? other.image = some image := same ▸ found
    have inside : other.InRun place length ↔
        place.offset ≤ other.offset ∧ other.offset < place.offset + length := and_iff_right same
    simp only [marksAt, paint, image?_modifyImage, lookup, if_pos same.symm, Option.map_some,
      Image.marksAt_painted content other.offset positive fits, inside]
  · rw [if_neg (fun inside : other.InRun place length => same inside.1)]
    simp only [marksAt, paint, image?_modifyImage, if_neg (Ne.symm same)]

theorem startsCode_paint (free : program.Free place length) (content : Content) (other : Place) :
    ((program.paint content place length).marksAt other).startsCode =
      ((program.marksAt other).startsCode || decide (content = .code ∧ other = place)) := by
  rw [free.marksAt_paint]
  split
  · rename_i inside
    have first : other.offset = place.offset ↔ other = place :=
      ⟨fun same => Place.eq_of_inRun inside same, fun same => same ▸ rfl⟩
    rw [Marks.startsCode_inRun, Marks.startsCode_of_unknown (free.unknown inside)]
    simp [first]
  · rename_i outside
    have different : other ≠ place := fun same => outside (same ▸ free.inRun_self)
    simp [different]

theorem remarked (free : program.Free place length) {content : Content}
    (allowed : content ≠ .padding) : program.Remarked (program.paint content place length) := by
  constructor
  · have images : (program.images.modify place.image (·.painted content place.offset length)).map
        Image.blank = program.images.map Image.blank := by
      apply Array.ext_getElem?
      intro index
      rw [Array.getElem?_map, Array.getElem?_map, Array.getElem?_modify]
      split
      · cases program.images[index]? with
        | none => rfl
        | some image => exact congrArg some (Image.blank_painted ..)
      · rfl
    simp only [blank, paint, modifyImage, images]
  · intro other
    rw [free.marksAt_paint]
    split
    · rename_i inside
      exact .inr ⟨free.unknown inside, content, place.offset, allowed, rfl⟩
    · exact .inl rfl

theorem gains_paint {before : Program} (remarked : before.Remarked program)
    (free : program.Free place length) (content other : Content) (byte : Place) :
    before.Gains (program.paint content place length) other byte ↔
      before.Gains program other byte ∨ content = other ∧ byte.InRun place length := by
  unfold Gains
  rw [free.marksAt_paint]
  split
  · rename_i inside
    have unknown := free.unknown inside
    have earlier := remarked.unknown_of_unknown unknown
    have nothing : (program.marksAt byte).meets other.marks ≠ true := by
      intro known
      simp [Marks.isUnknown_of_meets known] at unknown
    simp [Marks.meets_inRun, earlier, nothing, inside]
  · rename_i outside
    simp [outside]

theorem of_remarked {before : Program} (free : program.Free place length)
    (remarked : before.Remarked program) : before.Free place length := by
  obtain ⟨positive, image, found, unattributed⟩ := free
  obtain ⟨earlier, earlierFound, -⟩ := remarked.image_eq found
  exact ⟨positive, earlier, earlierFound, remarked.isUnattributed found earlierFound unattributed⟩

end Free

def extent (program : Program) (image : Nat) : Nat := ((program.image? image).map Image.size).getD 0

/-- The bytes of all images. -/
def places (program : Program) : List Place :=
  (List.range program.images.size).flatMap fun image =>
    (List.range (program.extent image)).map (Place.mk image)

theorem mem_places {program : Program} {place : Place} :
    place ∈ program.places ↔ program.contains place = true := by
  simp only [places, List.mem_flatMap, List.mem_range, List.mem_map, extent, contains]
  cases found : program.image? place.image with
  | none =>
      simp only [Bool.false_eq_true, iff_false]
      rintro ⟨image, -, offset, inside, rfl⟩
      simp [found] at inside
  | some image =>
      simp only [Image.contains, decide_eq_true_eq]
      constructor
      · rintro ⟨image, -, offset, inside, rfl⟩
        simpa [found] using inside
      · intro inside
        have bound := (Array.getElem?_eq_some_iff.mp found).1
        exact ⟨place.image, bound, place.offset, by simpa [found] using inside, rfl⟩

theorem nodup_places (program : Program) : program.places.Nodup := by
  rw [places, List.nodup_flatMap]
  constructor
  · intro image _
    exact List.nodup_range.map fun _ _ same => (Place.mk.inj same).2
  · refine List.nodup_range.imp fun {left right} different => ?_
    refine List.disjoint_left.mpr fun place inLeft inRight => ?_
    obtain ⟨_, -, rfl⟩ := List.mem_map.mp inLeft
    obtain ⟨_, -, same⟩ := List.mem_map.mp inRight
    exact different (Place.mk.inj same).1.symm

/-- The number of bytes that start an instruction now and did not before. -/
def startsGained (before after : Program) : Nat :=
  before.places.countP fun place =>
    (after.marksAt place).startsCode && !(before.marksAt place).startsCode

theorem startsGained_self (program : Program) : program.startsGained program = 0 := by
  simp [startsGained]

theorem countP_or_eq {α : Type} [DecidableEq α] {list : List α} {item : α} {test : α → Bool}
    (nodup : list.Nodup) (member : item ∈ list) (failed : test item = false) :
    list.countP (fun other => test other || decide (other = item)) = list.countP test + 1 := by
  -- With the item set apart, the rest of the list does not hold it a second time.
  have split := List.perm_cons_erase member
  have others : (list.erase item).countP (fun other => test other || decide (other = item)) =
      (list.erase item).countP test := by
    refine List.countP_congr fun other found => ?_
    have different := (nodup.mem_erase_iff.mp found).1
    simp [different]
  rw [split.countP_eq, split.countP_eq, List.countP_cons, List.countP_cons, others]
  simp [failed]

theorem startsGained_paint_code {before program : Program} {place : Place} {length : Nat}
    (remarked : before.Remarked program) (regular : program.Regular)
    (free : program.Free place length) :
    before.startsGained (program.paint .code place length) = before.startsGained program + 1 := by
  have unknown := free.unknown free.inRun_self
  have earlier := Marks.startsCode_of_unknown (remarked.unknown_of_unknown unknown)
  have member : place ∈ before.places := by
    rw [mem_places, ← remarked.contains]
    exact free.contains regular
  have failed : ((program.marksAt place).startsCode && !(before.marksAt place).startsCode) = false := by
    rw [Marks.startsCode_of_unknown unknown, Bool.false_and]
  unfold startsGained
  rw [← countP_or_eq before.nodup_places member failed]
  congr 1
  funext other
  rw [free.startsCode_paint]
  by_cases same : other = place <;> simp [same, earlier]

theorem startsGained_paint_data {before program : Program} {place : Place} {length : Nat}
    (free : program.Free place length) :
    before.startsGained (program.paint .data place length) = before.startsGained program := by
  simp [startsGained, free.startsCode_paint]

theorem places_blank (program : Program) : program.blank.places = program.places := by
  have extents : program.blank.extent = program.extent := by
    funext image
    rw [extent, extent, image?_blank, Option.map_map]
    rfl
  rw [places, places, extents]
  simp [blank]

theorem Remarked.places {before after : Program} (remarked : before.Remarked after) :
    after.places = before.places := by
  rw [← places_blank after, remarked.blank, places_blank]

def unknownBytes (program : Program) : Nat :=
  program.places.countP fun place => (program.marksAt place).isUnknown

theorem Free.unknownBytes_paint {program : Program} {place : Place} {length : Nat} {content : Content}
    (free : program.Free place length) (regular : program.Regular) (allowed : content ≠ .padding) :
    (program.paint content place length).unknownBytes < program.unknownBytes := by
  have remarked := free.remarked allowed
  have known : ((program.paint content place length).marksAt place).isUnknown = false := by
    rw [free.marksAt_paint, if_pos free.inRun_self, Marks.isUnknown_inRun]
  have member : place ∈ program.places := mem_places.mpr (free.contains regular)
  rw [unknownBytes, remarked.places, Nat.lt_iff_add_one_le,
    ← countP_or_eq program.nodup_places member known]
  refine List.countP_mono_left fun other _ still => ?_
  rw [Bool.or_eq_true, decide_eq_true_eq] at still
  rcases still with unknown | rfl
  · exact remarked.unknown_of_unknown unknown
  · exact free.unknown free.inRun_self

theorem countP_add_countP_le {α : Type} {first second whole : α → Bool} (list : List α)
    (apart : ∀ item, first item = true → second item = false)
    (inFirst : ∀ item, first item = true → whole item = true)
    (inSecond : ∀ item, second item = true → whole item = true) :
    list.countP first + list.countP second ≤ list.countP whole := by
  induction list with
  | nil => simp
  | cons head rest ih =>
      simp only [List.countP_cons]
      have apart := apart head
      have inFirst := inFirst head
      have inSecond := inSecond head
      by_cases one : first head = true <;> by_cases other : second head = true <;> simp_all <;> omega

/-- Bytes that start an instruction by now were unknown before and are so no more. -/
theorem Remarked.startsGained_le {before after : Program} (remarked : before.Remarked after) :
    before.startsGained after + after.unknownBytes ≤ before.unknownBytes := by
  rw [unknownBytes, remarked.places]
  refine countP_add_countP_le _ (fun place gained => ?_) (fun place gained => ?_) fun place unknown => ?_
  · rw [Bool.and_eq_true] at gained
    have code : (after.marksAt place).meets Content.code.marks = true :=
      Marks.isCode_of_startsCode gained.1
    exact Marks.isUnknown_of_meets code
  · rw [Bool.and_eq_true, Bool.not_eq_true'] at gained
    rcases remarked.marks place with same | ⟨unknown, -⟩
    · rw [same, gained.2] at gained
      cases gained.1
    · exact unknown
  · exact remarked.unknown_of_unknown unknown

end Program

end RealMode
