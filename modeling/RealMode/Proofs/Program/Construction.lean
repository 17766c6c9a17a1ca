import RealMode.Program
import RealMode.Proofs.Image.Marking

/-! Programs that loading can produce.

A program starts empty and grows by images, segments, groups, externals and public symbols. Bytes
of its images may be marked and given fix-ups before any analysis. -/

set_option autoImplicit false

namespace RealMode

/-- A request to record a fix-up changes fix-ups only. -/
theorem Image.addFixup_state (image : Image) (fixup : Fixup) :
    ∃ fixups, (image.addFixup fixup).state = { image with fixups } := by
  unfold addFixup
  split
  · exact ⟨image.fixups, rfl⟩
  · split
    · exact ⟨_, rfl⟩
    · exact ⟨_, rfl⟩

namespace Program

section Definitions

variable {program larger : Program}

theorem addSegment_eq_ok_iff {name className : String} {holder start length : Nat} :
    program.addSegment name className holder start length = .ok larger ↔
      (∃ image, program.image? holder = some image ∧ start ≤ image.size) ∧
        larger = { program with segments := program.segments ++
          [⟨program.segments.length, name, className, holder, start, length⟩] } := by
  unfold addSegment
  cases program.image? holder with
  | none => simp
  | some image =>
      by_cases outside : image.size < start
      · simp [outside, Nat.not_le.mpr outside]
      · simp [outside, Nat.not_lt.mp outside, eq_comm]

theorem addGroup_eq_ok_iff {name : String} {segments : List Nat} :
    program.addGroup name segments = .ok larger ↔
      (∀ id ∈ segments, ∃ segment, program.segment? id = some segment) ∧
        larger = { program with
          groups := program.groups ++ [⟨program.groups.length, name, segments⟩] } := by
  have complete : (segments.find? fun id => (program.segment? id).isNone) = none ↔
      ∀ id ∈ segments, ∃ segment, program.segment? id = some segment := by
    simp [List.find?_eq_none, Option.ne_none_iff_exists']
  rw [← complete]
  unfold addGroup
  cases segments.find? fun id => (program.segment? id).isNone <;> simp [eq_comm]

theorem addPublic_eq_ok_iff {name : String} {address : Address} :
    program.addPublic name address = .ok larger ↔
      (∀ symbol ∈ program.publics, symbol.name ≠ name) ∧
        larger = { program with publics := program.publics ++ [⟨name, address⟩] } := by
  have free : program.public? name = none ↔ ∀ symbol ∈ program.publics, symbol.name ≠ name := by
    simp [public?]
  rw [← free]
  unfold addPublic
  cases program.public? name <;> simp [eq_comm]

theorem setFrameBase_eq_ok_iff {holder : Nat} {loadSegment : UInt16} :
    program.setFrameBase holder loadSegment = .ok larger ↔
      (∃ image, program.image? holder = some image) ∧
        larger = { program with frameBase := some ⟨holder, loadSegment⟩ } := by
  unfold setFrameBase
  cases program.image? holder <;> simp [eq_comm]

theorem addSegment_keeps (program : Program) (name className : String) (holder start length : Nat) :
    (program.addSegment name className holder start length).Keeps program := by
  unfold addSegment
  split
  · exact .error ..
  · split
    · exact .error ..
    · exact .ok ..

theorem addGroup_keeps (program : Program) (name : String) (segments : List Nat) :
    (program.addGroup name segments).Keeps program := by
  unfold addGroup
  split
  · exact .error ..
  · exact .ok ..

theorem addPublic_keeps (program : Program) (name : String) (address : Address) :
    (program.addPublic name address).Keeps program := by
  unfold addPublic
  split
  · exact .error ..
  · exact .ok ..

theorem setFrameBase_keeps (program : Program) (holder : Nat) (loadSegment : UInt16) :
    (program.setFrameBase holder loadSegment).Keeps program := by
  unfold setFrameBase
  split
  · exact .error ..
  · exact .ok ..

end Definitions

/-- Programs that the operations on programs and images leave, done or refused. -/
inductive Built : Program → Prop where
  | empty : Built .empty
  | addImage {program : Program} (name : String) (bytes : Array UInt8) :
      Built program → Built (program.addImage name bytes)
  | addSegment {program : Program} (name className : String) (image start length : Nat) :
      Built program → Built (program.addSegment name className image start length).state
  | addGroup {program : Program} (name : String) (segments : List Nat) :
      Built program → Built (program.addGroup name segments).state
  | addExternal {program : Program} (name : String) :
      Built program → Built (program.addExternal name)
  | addPublic {program : Program} (name : String) (address : Address) :
      Built program → Built (program.addPublic name address).state
  | setFrameBase {program : Program} (image : Nat) (loadSegment : UInt16) :
      Built program → Built (program.setFrameBase image loadSegment).state
  | mark {program : Program} (id : Nat) (content : Content) (start length : Nat) :
      Built program →
      Built (program.modifyImage id fun image => (image.mark content start length).state)
  | addFixup {program : Program} (id : Nat) (fixup : Fixup) :
      Built program → Built (program.modifyImage id fun image => (image.addFixup fixup).state)
  | closeFixups {program : Program} (id : Nat) :
      Built program → Built (program.modifyImage id Image.closeFixups)

/-- Every image knows its number and has marks for each of its bytes. -/
def Regular (program : Program) : Prop :=
  ∀ id image, program.image? id = some image → image.id = id ∧ image.marks.size = image.size

theorem Regular.numbered {program : Program} (regular : program.Regular) {id : Nat} {image : Image}
    (found : program.image? id = some image) : image.id = id :=
  (regular id image found).1

theorem Regular.covered {program : Program} (regular : program.Regular) {id : Nat} {image : Image}
    (found : program.image? id = some image) : image.marks.size = image.size :=
  (regular id image found).2

theorem Regular.marksAt_of_outside {program : Program} (regular : program.Regular) {place : Place}
    (outside : program.contains place = false) : program.marksAt place = .empty := by
  rw [marksAt]
  cases found : program.image? place.image with
  | none => rfl
  | some image =>
      have beyond : image.marks.size ≤ place.offset := by
        rw [regular.covered found]
        simpa [contains, found, Image.contains] using outside
      simp [Image.marksAt, beyond]

theorem image?_modifyImage (program : Program) (id other : Nat) (change : Image → Image) :
    (program.modifyImage id change).image? other =
      if id = other then (program.image? other).map change else program.image? other := by
  simp only [image?, modifyImage, Array.getElem?_modify]

theorem modifyImage_congr {program : Program} {id : Nat} {image : Image} {change other : Image → Image}
    (found : program.image? id = some image) (same : change image = other image) :
    program.modifyImage id change = program.modifyImage id other := by
  have images : program.images.modify id change = program.images.modify id other := by
    refine Array.ext_getElem? fun index => ?_
    rw [Array.getElem?_modify, Array.getElem?_modify]
    split
    · rename_i here
      rw [← here, show program.images[id]? = some image from found, Option.map_some, Option.map_some, same]
    · rfl
  rw [modifyImage, modifyImage, images]

section Each

variable {property : Nat → Image → Prop} {program : Program}

/-- Every image has a property, which may depend on its number. -/
def Each (property : Nat → Image → Prop) (program : Program) : Prop :=
  ∀ id image, program.image? id = some image → property id image

theorem Each.of_images {before after : Program} (each : before.Each property)
    (same : after.images = before.images) : after.Each property := by
  intro id image found
  rw [image?, same] at found
  exact each id image found

theorem Each.modifyImage (each : program.Each property) {id : Nat} {change : Image → Image}
    (kept : ∀ image, program.image? id = some image → property id image →
      property id (change image)) :
    (program.modifyImage id change).Each property := by
  intro other image found
  rw [image?_modifyImage] at found
  split at found
  · rename_i same
    subst same
    obtain ⟨earlier, earlierFound, rfl⟩ := Option.map_eq_some_iff.mp found
    exact kept earlier earlierFound (each id earlier earlierFound)
  · exact each other image found

theorem Each.addImage (each : program.Each property) {name : String} {bytes : Array UInt8}
    (fresh : property program.images.size (.fresh program.images.size name bytes)) :
    (program.addImage name bytes).Each property := by
  intro id image found
  simp only [image?, Program.addImage, Array.getElem?_push] at found
  split at found
  · rename_i last
    obtain rfl := Option.some.inj found
    rw [last]
    exact fresh
  · exact each id image found

/-- A property that fresh images have, and that marks and fix-ups do not take away, is one of all
images of a program that loading can produce. -/
theorem Built.each (built : program.Built)
    (fresh : ∀ id name bytes, property id (.fresh id name bytes))
    (mark : ∀ id image content start length, property id image →
      image.markFault? start length = none → property id (image.painted content start length))
    (patch : ∀ id image fixups, property id image → property id { image with fixups }) :
    program.Each property := by
  induction built with
  | empty => intro id image found; simp [image?, Program.empty] at found
  | addImage name bytes _ ih => exact ih.addImage (fresh ..)
  | addSegment name className holder start length _ ih =>
      exact (addSegment_keeps ..).induction (motive := Each property) ih fun larger defined =>
        ih.of_images (by rw [(addSegment_eq_ok_iff.mp defined).2])
  | addGroup name segments _ ih =>
      exact (addGroup_keeps ..).induction (motive := Each property) ih fun larger defined =>
        ih.of_images (by rw [(addGroup_eq_ok_iff.mp defined).2])
  | addExternal name _ ih => exact ih.of_images rfl
  | addPublic name address _ ih =>
      exact (addPublic_keeps ..).induction (motive := Each property) ih fun larger defined =>
        ih.of_images (by rw [(addPublic_eq_ok_iff.mp defined).2])
  | setFrameBase holder loadSegment _ ih =>
      exact (setFrameBase_keeps ..).induction (motive := Each property) ih fun larger defined =>
        ih.of_images (by rw [(setFrameBase_eq_ok_iff.mp defined).2])
  | mark id content start length _ ih =>
      refine ih.modifyImage fun image _ holds =>
        (image.mark_keeps ..).induction (motive := property id) holds fun marked done => ?_
      obtain ⟨faultless, rfl⟩ := Image.mark_eq_ok done
      exact mark _ _ _ _ _ holds faultless
  | addFixup id fixup _ ih =>
      refine ih.modifyImage fun image _ holds => ?_
      obtain ⟨fixups, same⟩ := image.addFixup_state fixup
      rw [same]
      exact patch _ _ fixups holds
  | closeFixups id _ ih => exact ih.modifyImage fun image _ holds => patch id image _ holds

end Each

theorem Built.regular {program : Program} (built : program.Built) : program.Regular := by
  refine built.each (fun id name bytes => ?_) (fun id image content start length holds _ => ?_)
    fun id image fixups holds => holds
  · exact ⟨rfl, by simp [Image.fresh, Image.size]⟩
  · exact ⟨holds.1, (Image.size_marks_painted ..).trans holds.2⟩

/-- A byte has no marks before it is marked, and after that the marks of its place in a run. -/
theorem Built.marksAt_cases {program : Program} (built : program.Built) (place : Place) :
    program.marksAt place = .empty ∨
      ∃ content start, program.marksAt place = .inRun content start place.offset := by
  have each : program.Each fun _ image => ∀ offset, image.marksAt offset = .empty ∨
      ∃ content start, image.marksAt offset = .inRun content start offset := by
    refine built.each (fun id name bytes offset => .inl (Image.marksAt_fresh ..)) ?_
      fun id image fixups holds => holds
    intro id image content start length holds faultless offset
    rw [Image.marksAt_painted_within content offset (Image.unknown_of_markFault? faultless).1]
    split
    · exact .inr ⟨content, start, rfl⟩
    · exact holds offset
  rw [marksAt]
  cases found : program.image? place.image with
  | none => exact .inl rfl
  | some image => exact each place.image image found place.offset

theorem Built.isUnknown_iff {program : Program} (built : program.Built) (place : Place) :
    (program.marksAt place).isUnknown = true ↔ program.marksAt place = .empty := by
  rcases built.marksAt_cases place with unmarked | ⟨content, start, marked⟩
  · simp [unmarked, show Marks.empty.isUnknown = true from rfl]
  · have known := Marks.isUnknown_inRun content start place.offset
    rw [marked, known]
    refine iff_of_false (by simp) fun same => ?_
    rw [same] at known
    cases known

theorem Built.startsCode_iff {program : Program} (built : program.Built) (place : Place) :
    (program.marksAt place).startsCode = true ↔
      program.marksAt place = Marks.code.union .lead := by
  constructor
  · intro starts
    rcases built.marksAt_cases place with unmarked | ⟨content, start, marked⟩
    · rw [unmarked] at starts
      cases starts
    · rw [marked, Marks.startsCode_inRun, Bool.and_eq_true, decide_eq_true_eq,
        decide_eq_true_eq] at starts
      obtain ⟨rfl, first⟩ := starts
      rw [marked, Marks.inRun, if_pos first]
      rfl
  · intro same
    rw [same]
    rfl

/-- Segments are numbered from zero in the order of their definition. -/
theorem Built.segmentIds {program : Program} (built : program.Built) :
    program.segments.map Segment.id = List.range program.segments.length := by
  let numbered (program : Program) : Prop :=
    program.segments.map Segment.id = List.range program.segments.length
  induction built with
  | empty => rfl
  | addImage name bytes _ ih => exact ih
  | addSegment name className holder start length _ ih =>
      refine (addSegment_keeps ..).induction (motive := numbered) ih fun larger defined => ?_
      obtain ⟨-, rfl⟩ := addSegment_eq_ok_iff.mp defined
      simp [numbered, List.range_succ, ih]
  | addGroup name segments _ ih =>
      refine (addGroup_keeps ..).induction (motive := numbered) ih fun larger defined => ?_
      obtain ⟨-, rfl⟩ := addGroup_eq_ok_iff.mp defined
      exact ih
  | addExternal name _ ih => exact ih
  | addPublic name address _ ih =>
      refine (addPublic_keeps ..).induction (motive := numbered) ih fun larger defined => ?_
      obtain ⟨-, rfl⟩ := addPublic_eq_ok_iff.mp defined
      exact ih
  | setFrameBase holder loadSegment _ ih =>
      refine (setFrameBase_keeps ..).induction (motive := numbered) ih fun larger defined => ?_
      obtain ⟨-, rfl⟩ := setFrameBase_eq_ok_iff.mp defined
      exact ih
  | mark _ _ _ _ _ ih => exact ih
  | addFixup _ _ _ ih => exact ih
  | closeFixups _ _ ih => exact ih

theorem Built.nodup_segmentIds {program : Program} (built : program.Built) :
    (program.segments.map Segment.id).Nodup :=
  built.segmentIds ▸ List.nodup_range

end Program

end RealMode
