import RealMode.Proofs.Program.Layout

/-! Overlaps of segments and the bytes that they share.

A segment that starts inside an earlier one shares its first byte with it, if it has any. Segments with an empty
range share nothing, but they are reported where they start inside an earlier segment. The range of a segment that
ends in range is empty if its length is zero. -/

set_option autoImplicit false

namespace RealMode

namespace Segment

variable {left right segment earlier : Segment}

/-- There is a byte in both segments. -/
def Meets (left right : Segment) : Prop :=
  ∃ place, left.covers place = true ∧ right.covers place = true

theorem meets_iff : left.Meets right ↔
    left.image = right.image ∧ max left.start right.start < min left.stop right.stop := by
  simp only [Meets, covers_iff]
  constructor
  · rintro ⟨place, inLeft, inRight⟩
    omega
  · rintro ⟨image, below⟩
    refine ⟨⟨left.image, max left.start right.start⟩, ⟨rfl, ?_, ?_⟩, image.symm, ?_, ?_⟩ <;>
      dsimp only <;> omega

instance (left right : Segment) : Decidable (left.Meets right) := decidable_of_iff _ meets_iff.symm

theorem Meets.filled (meets : left.Meets right) : left.start < left.stop := by
  rw [meets_iff] at meets
  omega

theorem start_lt_stop_iff (fits : segment.start + segment.length < UInt64.size) :
    segment.start < segment.stop ↔ segment.length ≠ 0 := by
  rw [stop, offsetBehind_of_lt fits]
  omega

/-- A segment that has bytes shares its first one with a segment that it starts inside of. -/
theorem StartsInside.meets (inside : segment.StartsInside earlier) (filled : segment.start < segment.stop) :
    segment.Meets earlier := by
  obtain ⟨image, before, below⟩ := inside
  have ordered : earlier.start ≤ segment.start := by
    unfold Before at before
    omega
  rw [meets_iff]
  omega

theorem StartsInside.ne (inside : segment.StartsInside earlier) : earlier ≠ segment := by
  rintro rfl
  exact inside.2.1.asymm inside.2.1

/-- Of two segments that share a byte, the later one starts inside the other. -/
theorem Meets.startsInside (meets : left.Meets right) (differ : left.id ≠ right.id) :
    left.StartsInside right ∨ right.StartsInside left := by
  rw [meets_iff] at meets
  unfold StartsInside Before
  omega

end Segment

namespace Program

variable {program : Program}

theorem Built.mem_locations_iff (built : program.Built) {location : Option Address} :
    location ∈ program.segmentOverlaps.map Diagnostic.location ↔
      ∃ segment ∈ program.segments, (∃ earlier ∈ program.segments, segment.StartsInside earlier) ∧
        some ⟨.segment segment.id, 0⟩ = location := by
  have named : program.segmentOverlaps.map Diagnostic.location =
      (program.segmentsInOrder.filter fun segment =>
        decide (∃ earlier ∈ program.segmentsInOrder, segment.StartsInside earlier)).map
          fun segment => some ⟨.segment segment.id, 0⟩ := by
    rw [eq_comm, ← List.forall₂_eq_eq_eq, List.forall₂_map_left_iff, List.forall₂_map_right_iff]
    refine built.segmentOverlaps.imp ?_
    rintro segment finding ⟨reached, -, -, -, rfl⟩
    rfl
  simp only [named, List.mem_map, List.mem_filter, mem_segmentsInOrder, decide_eq_true_eq, and_assoc]

theorem Built.segmentOverlaps_eq_nil_iff (built : program.Built) :
    program.segmentOverlaps = [] ↔
      ∀ segment ∈ program.segments, ∀ earlier ∈ program.segments, ¬segment.StartsInside earlier := by
  rw [← List.map_eq_nil_iff (f := Diagnostic.location), List.eq_nil_iff_forall_not_mem]
  simp only [built.mem_locations_iff]
  constructor
  · intro none segment member earlier listed inside
    exact none _ ⟨segment, member, ⟨earlier, listed, inside⟩, rfl⟩
  · rintro none location ⟨segment, member, ⟨earlier, listed, inside⟩, -⟩
    exact none segment member earlier listed inside

/-- A segment for which an overlap is found shares a byte with another one if and only if it has bytes, and of any
two segments that share a byte, an overlap is found for one. Nothing is found if and only if no two segments share
a byte and none without bytes starts inside an earlier one. A segment that ends in range has bytes if its length
is not zero. -/
theorem filled_overlaps_share_bytes (built : program.Built) :
    (∀ finding ∈ program.segmentOverlaps, ∃ segment ∈ program.segments,
      finding.location = some ⟨.segment segment.id, 0⟩ ∧
      ((∃ other ∈ program.segments, other ≠ segment ∧ segment.Meets other) ↔ segment.start < segment.stop)) ∧
    (∀ left ∈ program.segments, ∀ right ∈ program.segments, left ≠ right → left.Meets right →
      ∃ finding ∈ program.segmentOverlaps, finding.location = some ⟨.segment left.id, 0⟩ ∨
        finding.location = some ⟨.segment right.id, 0⟩) ∧
    (program.segmentOverlaps = [] ↔
      (∀ left ∈ program.segments, ∀ right ∈ program.segments, left ≠ right → ¬left.Meets right) ∧
      ∀ empty ∈ program.segments, empty.stop ≤ empty.start →
        ∀ earlier ∈ program.segments, ¬empty.StartsInside earlier) ∧
    ∀ segment ∈ program.segments, segment.start + segment.length < UInt64.size →
      (segment.start < segment.stop ↔ segment.length ≠ 0) := by
  have startsInside : ∀ left ∈ program.segments, ∀ right ∈ program.segments, left ≠ right →
      left.Meets right → left.StartsInside right ∨ right.StartsInside left :=
    fun left member right found differ meets =>
      meets.startsInside fun same => differ (built.eq_of_segmentId member found same)
  refine ⟨fun finding listed => ?_, fun left member right found differ meets => ?_, ?_,
    fun _ _ => Segment.start_lt_stop_iff⟩
  · obtain ⟨segment, member, ⟨earlier, found, inside⟩, same⟩ :=
      built.mem_locations_iff.mp (List.mem_map_of_mem listed)
    refine ⟨segment, member, same.symm, ?_, fun filled => ⟨earlier, found, inside.ne, inside.meets filled⟩⟩
    rintro ⟨other, -, -, meets⟩
    exact meets.filled
  · rcases startsInside left member right found differ meets with inside | inside
    · obtain ⟨finding, listed, same⟩ := List.mem_map.mp
        (built.mem_locations_iff.mpr ⟨left, member, ⟨right, found, inside⟩, rfl⟩)
      exact ⟨finding, listed, .inl same⟩
    · obtain ⟨finding, listed, same⟩ := List.mem_map.mp
        (built.mem_locations_iff.mpr ⟨right, found, ⟨left, member, inside⟩, rfl⟩)
      exact ⟨finding, listed, .inr same⟩
  · rw [built.segmentOverlaps_eq_nil_iff]
    constructor
    · intro none
      refine ⟨fun left member right found differ meets => ?_, fun empty member _ => none empty member⟩
      rcases startsInside left member right found differ meets with inside | inside
      · exact none left member right found inside
      · exact none right found left member inside
    · rintro ⟨apart, outside⟩ segment member earlier found inside
      rcases Nat.lt_or_ge segment.start segment.stop with filled | empty
      · exact apart segment member earlier found inside.ne.symm (inside.meets filled)
      · exact outside segment member empty earlier found inside

/-- Of the segments found in `layered`, `gap` alone is empty, and it shares no byte with any other. -/
theorem layered_filled_overlaps_share_bytes :
    let inner : Segment := ⟨3, "inner", "CODE", 0, 4, 2⟩
    let outer : Segment := ⟨1, "outer", "CODE", 0, 0, 12⟩
    let gap : Segment := ⟨5, "gap", "DATA", 0, 4, 0⟩
    layered.Built ∧ inner.Meets outer ∧
      (∃ finding ∈ layered.segmentOverlaps, finding.location = some ⟨.segment 3, 0⟩ ∨
        finding.location = some ⟨.segment 1, 0⟩) ∧
      gap.StartsInside outer ∧ (∀ other ∈ layered.segments, ¬gap.Meets other) ∧
      layered.segmentOverlaps ≠ [] := by
  intro inner outer gap
  obtain ⟨-, found, nothing, -⟩ := filled_overlaps_share_bytes layered_built
  have meets : inner.Meets outer := by decide
  have inside : gap.StartsInside outer := by decide
  refine ⟨layered_built, meets, found inner (by decide) outer (by decide) (by decide) meets, inside,
    by decide, fun none => ?_⟩
  exact (nothing.mp none).2 gap (by decide) (by decide) outer (by decide) inside

/-- Two empty segments at the start of a third one, of which one was defined before that. -/
def hollow : Program where
  images := #[.fresh 0 "main" (Array.replicate 4 0)]
  segments := [⟨0, "front", "DATA", 0, 0, 0⟩, ⟨1, "whole", "CODE", 0, 0, 4⟩, ⟨2, "back", "DATA", 0, 0, 0⟩]
  groups := []
  externals := []
  publics := []
  frameBase := none

theorem hollow_built : hollow.Built := by
  have main := Built.empty.addImage "main" (Array.replicate 4 0)
  have front := main.addSegment "front" "DATA" 0 0 0
  have whole := front.addSegment "whole" "CODE" 0 0 4
  exact whole.addSegment "back" "DATA" 0 0 0

/-- An overlap is found for an empty segment, although no two segments share a byte. -/
theorem hollow_overlap_without_bytes :
    hollow.Built ∧ hollow.segmentOverlaps.map Diagnostic.location = [some ⟨.segment 2, 0⟩] ∧
      ∀ left ∈ hollow.segments, ∀ right ∈ hollow.segments, left ≠ right → ¬left.Meets right := by
  refine ⟨hollow_built, ?_, by decide⟩
  have ordered : hollow.segmentsInOrder = hollow.segments := by
    simp [segmentsInOrder, hollow, List.mergeSort, Segment.precedes]
  rw [segmentOverlaps, ordered]
  decide +kernel

end Program

end RealMode
