import Mathlib.Data.List.Forall2
import Mathlib.Data.List.Nodup
import RealMode.Analysis
import RealMode.Proofs.Program.Construction

/-! Segments of a program and the overlaps between them.

No two segments have the same number, so their order by image, start and number leaves no ties. Of the
segments passed in that order, the one that reaches furthest stands for all in its image: a segment
starts inside one of them if it starts inside that one. -/

set_option autoImplicit false

namespace RealMode

namespace Segment

theorem covers_iff {segment : Segment} {place : Place} :
    segment.covers place = true ↔
      segment.image = place.image ∧ segment.start ≤ place.offset ∧ place.offset < segment.stop := by
  simp only [covers, Bool.and_eq_true, decide_eq_true_eq, and_assoc]

/-- `earlier` comes before `later` by image, start and number. -/
def Before (earlier later : Segment) : Prop :=
  earlier.image < later.image ∨
    (earlier.image = later.image ∧
      (earlier.start < later.start ∨ (earlier.start = later.start ∧ earlier.id < later.id)))

instance (earlier later : Segment) : Decidable (earlier.Before later) :=
  inferInstanceAs (Decidable (_ ∨ _))

theorem Before.asymm {left right : Segment} (before : left.Before right) : ¬right.Before left := by
  unfold Before at before ⊢
  omega

theorem Before.image_le {earlier later : Segment} (before : earlier.Before later) :
    earlier.image ≤ later.image := by
  unfold Before at before
  omega

theorem precedes_iff {left right : Segment} :
    left.precedes right = true ↔ left.Before right ∨
      (left.image = right.image ∧ left.start = right.start ∧ left.id = right.id) := by
  simp only [precedes, Before, Bool.or_eq_true, Bool.and_eq_true, decide_eq_true_eq]
  omega

theorem precedes_trans (first second third : Segment) (left : first.precedes second = true)
    (right : second.precedes third = true) : first.precedes third = true := by
  rw [precedes_iff] at left right ⊢
  unfold Before at left right ⊢
  omega

theorem precedes_total (left right : Segment) :
    (left.precedes right || right.precedes left) = true := by
  rw [Bool.or_eq_true, precedes_iff, precedes_iff]
  unfold Before
  omega

/-- `segment` starts before the end of `earlier`, which comes before it in the same image. -/
def StartsInside (segment earlier : Segment) : Prop :=
  earlier.image = segment.image ∧ earlier.Before segment ∧ segment.start < earlier.stop

instance (segment earlier : Segment) : Decidable (segment.StartsInside earlier) :=
  inferInstanceAs (Decidable (_ ∧ _))

/-- A finding about `segment` names an earlier one of `segments` that it starts inside of. None of the
earlier ones in the image ends behind that. -/
def Reports (segments : List Segment) (segment : Segment) (finding : Diagnostic) : Prop :=
  ∃ reached ∈ segments, segment.StartsInside reached ∧
    (∀ other ∈ segments, other.image = segment.image → other.Before segment →
      other.stop ≤ reached.stop) ∧
    finding = .found (some ⟨.segment segment.id, 0⟩) .segmentOverlap (segment.overlapMessage reached)

/-- In a list in order, what comes before a segment stands in front of it. -/
theorem mem_front_iff {front rest : List Segment} {segment other : Segment}
    (ordered : (front ++ segment :: rest).Pairwise Before) :
    other ∈ front ↔ other ∈ front ++ segment :: rest ∧ other.Before segment := by
  obtain ⟨-, behind, across⟩ := List.pairwise_append.mp ordered
  constructor
  · intro member
    exact ⟨List.mem_append_left _ member, across other member segment List.mem_cons_self⟩
  · rintro ⟨member, before⟩
    rw [List.mem_append, List.mem_cons] at member
    rcases member with inFront | rfl | later
    · exact inFront
    · exact absurd before before.asymm
    · exact absurd before ((List.pairwise_cons.mp behind).1 other later).asymm

/-- `other` ends no later than `reached`, or no later than a segment that has been passed starts. -/
def Settled (passed : List Segment) (reached other : Segment) : Prop :=
  other.stop ≤ reached.stop ∨ ∃ passer ∈ passed, passer.image = other.image ∧ other.stop ≤ passer.start

theorem Settled.concat {passed : List Segment} {reached further segment other : Segment}
    (settled : Settled passed reached other) (ends : reached.stop ≤ further.stop) :
    Settled (passed ++ [segment]) further other := by
  rcases settled with within | ⟨passer, member, same, before⟩
  · exact .inl (Nat.le_trans within ends)
  · exact .inr ⟨passer, List.mem_append_left _ member, same, before⟩

/-- `reached` lies in the last image that has been passed, and settles all segments of that image. -/
structure Furthest (passed : List Segment) (reached : Segment) : Prop where
  member : reached ∈ passed
  last : ∀ other ∈ passed, other.image ≤ reached.image
  settled : ∀ other ∈ passed, other.image = reached.image → Settled passed reached other

namespace Furthest

variable {segments passed : List Segment} {reached segment : Segment}

theorem single (first : Segment) : Furthest [first] first where
  member := by simp
  last := by simp
  settled := by simp [Settled]

/-- A segment behind those passed that starts inside one of them starts before the end of the furthest. -/
theorem stop_le_or_le_start (furthest : Furthest passed reached)
    (behind : ∀ other ∈ passed, other.Before segment) (sameImage : reached.image = segment.image)
    {other : Segment} (member : other ∈ passed) (same : other.image = segment.image) :
    other.stop ≤ reached.stop ∨ other.stop ≤ segment.start := by
  rcases furthest.settled other member (same.trans sameImage.symm) with
    within | ⟨passer, passed, alike, before⟩
  · exact .inl within
  · have first := behind passer passed
    unfold Before at first
    exact .inr (by omega)

theorem exists_startsInside_iff (furthest : Furthest passed reached)
    (earlier_iff : ∀ other, other ∈ passed ↔ other ∈ segments ∧ other.Before segment) :
    (∃ earlier ∈ segments, segment.StartsInside earlier) ↔
      reached.image = segment.image ∧ segment.start < reached.stop := by
  obtain ⟨member, before⟩ := (earlier_iff reached).mp furthest.member
  constructor
  · rintro ⟨earlier, listed, sameImage, first, inside⟩
    have passedBy := (earlier_iff earlier).mpr ⟨listed, first⟩
    have lower := furthest.last earlier passedBy
    have upper := before.image_le
    have within := furthest.stop_le_or_le_start (fun other passed => ((earlier_iff other).mp passed).2)
      (by omega) passedBy sameImage
    omega
  · rintro ⟨sameImage, inside⟩
    exact ⟨reached, member, sameImage, before, inside⟩

theorem reports (furthest : Furthest passed reached)
    (earlier_iff : ∀ other, other ∈ passed ↔ other ∈ segments ∧ other.Before segment)
    (sameImage : reached.image = segment.image) (inside : segment.start < reached.stop) :
    Reports segments segment (segment.overlapFinding reached) := by
  obtain ⟨member, before⟩ := (earlier_iff reached).mp furthest.member
  refine ⟨reached, member, ⟨sameImage, before, inside⟩, fun other listed same first => ?_, rfl⟩
  have within := furthest.stop_le_or_le_start (fun other passed => ((earlier_iff other).mp passed).2)
    sameImage ((earlier_iff other).mpr ⟨listed, first⟩) same
  omega

/-- In the image of a segment just passed, one that settles the segments before it and the segment itself
is the furthest. -/
theorem concat {further : Segment} (behind : ∀ other ∈ passed, other.Before segment)
    (member : further ∈ passed ++ [segment]) (sameImage : further.image = segment.image)
    (settled : ∀ other ∈ passed, other.image = segment.image → Settled (passed ++ [segment]) further other)
    (ends : segment.stop ≤ further.stop) : Furthest (passed ++ [segment]) further where
  member := member
  last := by
    refine List.forall_mem_append.mpr ⟨fun other earlier => ?_, List.forall_mem_singleton.mpr ?_⟩
    · have := (behind other earlier).image_le
      omega
    · omega
  settled := by
    refine List.forall_mem_append.mpr ⟨fun other earlier same => ?_, List.forall_mem_singleton.mpr ?_⟩
    · exact settled other earlier (same.trans sameImage)
    · exact fun _ => .inl ends

/-- Behind a segment of the same image, whichever of the two ends later is the furthest. -/
theorem extend (furthest : Furthest passed reached) (behind : ∀ other ∈ passed, other.Before segment)
    (sameImage : reached.image = segment.image) :
    Furthest (passed ++ [segment]) (if reached.stop < segment.stop then segment else reached) := by
  have settled : ∀ other ∈ passed, other.image = segment.image → Settled passed reached other :=
    fun other member same => furthest.settled other member (same.trans sameImage.symm)
  split
  · rename_i longer
    exact concat behind (by simp) rfl
      (fun other member same => (settled other member same).concat (Nat.le_of_lt longer)) (Nat.le_refl _)
  · rename_i shorter
    exact concat behind (List.mem_append_left _ furthest.member) sameImage
      (fun other member same => (settled other member same).concat (Nat.le_refl _)) (Nat.not_lt.mp shorter)

/-- A segment that starts behind the furthest one, or in another image, is the furthest from then on, wherever
it ends: those before it end before it starts. -/
theorem restart (furthest : Furthest passed reached) (behind : ∀ other ∈ passed, other.Before segment)
    (outside : ¬(reached.image = segment.image ∧ segment.start < reached.stop)) :
    Furthest (passed ++ [segment]) segment := by
  refine concat behind (by simp) rfl (fun other member same => ?_) (Nat.le_refl _)
  have lower := furthest.last other member
  have upper := (behind reached furthest.member).image_le
  have within := furthest.stop_le_or_le_start behind (by omega) member same
  exact .inr ⟨segment, by simp, same.symm, by omega⟩

end Furthest

/-- Behind the segments that have been passed, those that start inside an earlier one are reported. -/
theorem overlapsBehind_reports {segments passed rest : List Segment} {reached : Segment}
    (ordered : segments.Pairwise Before) (whole : passed ++ rest = segments)
    (furthest : Furthest passed reached) :
    List.Forall₂ (Reports segments)
      (rest.filter fun segment => decide (∃ earlier ∈ segments, segment.StartsInside earlier))
      (overlapsBehind reached rest) := by
  induction rest generalizing passed reached with
  | nil => exact .nil
  | cons segment rest ih =>
      have earlier_iff : ∀ other, other ∈ passed ↔ other ∈ segments ∧ other.Before segment := by
        subst whole
        exact fun other => mem_front_iff ordered
      have behind : ∀ other ∈ passed, other.Before segment :=
        fun other member => ((earlier_iff other).mp member).2
      have onward : (passed ++ [segment]) ++ rest = segments := by
        rw [List.append_assoc]
        exact whole
      have overlaps := furthest.exists_startsInside_iff earlier_iff
      rw [List.filter_cons, overlapsBehind]
      by_cases inside : reached.image = segment.image ∧ segment.start < reached.stop
      · rw [if_pos (decide_eq_true (overlaps.mpr inside)), if_pos inside]
        exact .cons (furthest.reports earlier_iff inside.1 inside.2)
          (ih onward (furthest.extend behind inside.1))
      · rw [if_neg (by simpa using mt overlaps.mp inside), if_neg inside]
        exact ih onward (furthest.restart behind inside)

end Segment

namespace Program

theorem covers_of_segmentAt? {program : Program} {place : Place} {segment : Segment}
    (found : program.segmentAt? place = some segment) :
    segment ∈ program.segments ∧ segment.covers place = true := by
  refine ⟨List.mem_of_find?_eq_some found, ?_⟩
  rw [segmentAt?, List.find?_eq_some_iff_append] at found
  exact found.1

theorem Built.eq_of_segmentId {program : Program} (built : program.Built) {left right : Segment}
    (leftMember : left ∈ program.segments) (rightMember : right ∈ program.segments)
    (same : left.id = right.id) : left = right :=
  List.inj_on_of_nodup_map built.nodup_segmentIds leftMember rightMember same

theorem mem_segmentsInOrder {program : Program} {segment : Segment} :
    segment ∈ program.segmentsInOrder ↔ segment ∈ program.segments :=
  List.mem_mergeSort

theorem Built.segmentsInOrder {program : Program} (built : program.Built) :
    program.segmentsInOrder.Pairwise Segment.Before := by
  have sorted : program.segmentsInOrder.Pairwise fun left right => left.precedes right = true :=
    List.pairwise_mergeSort Segment.precedes_trans Segment.precedes_total program.segments
  have distinct : program.segmentsInOrder.Pairwise fun left right => left.id ≠ right.id := by
    have reordered := (List.mergeSort_perm program.segments Segment.precedes).map Segment.id
    exact List.pairwise_map.mp (reordered.nodup_iff.mpr built.nodup_segmentIds)
  refine (sorted.and distinct).imp fun {left right} both => ?_
  rcases Segment.precedes_iff.mp both.1 with before | ⟨-, -, same⟩
  · exact before
  · exact absurd same both.2

theorem Built.segmentOverlaps {program : Program} (built : program.Built) :
    List.Forall₂ (Segment.Reports program.segmentsInOrder)
      (program.segmentsInOrder.filter fun segment =>
        decide (∃ earlier ∈ program.segmentsInOrder, segment.StartsInside earlier))
      program.segmentOverlaps := by
  have ordered := built.segmentsInOrder
  unfold Program.segmentOverlaps
  generalize program.segmentsInOrder = segments at ordered ⊢
  cases segments with
  | nil => exact .nil
  | cons first rest =>
      have whole : [first] ++ rest = first :: rest := rfl
      have behind := Segment.overlapsBehind_reports ordered whole (.single first)
      -- Nothing comes before the first segment.
      have alone : ¬∃ earlier ∈ first :: rest, first.StartsInside earlier := by
        rintro ⟨earlier, member, -, before, -⟩
        have front : earlier ∈ [] := (Segment.mem_front_iff ordered).mpr ⟨member, before⟩
        cases front
      rw [List.filter_cons, if_neg (by simpa using alone)]
      exact behind

/-- The overlaps that are found are one finding for each segment that starts inside an earlier one of its
image, in the order of these segments. Each finding names the earlier segment that reaches furthest. An
analysis of the program, whatever it knows of the bytes, adds them to its diagnostics. -/
theorem segment_overlaps_reported {program : Program} (built : program.Built) :
    ∃ overlapped : List Segment,
      overlapped.Pairwise Segment.Before ∧
      (∀ segment, segment ∈ overlapped ↔ segment ∈ program.segments ∧
        ∃ earlier ∈ program.segments, segment.StartsInside earlier) ∧
      List.Forall₂ (Segment.Reports program.segments) overlapped program.segmentOverlaps ∧
      program.segmentOverlaps.length = overlapped.length ∧
      ∀ state : Analysis, state.program.segments = program.segments →
        state.checkSegments =
          { state with diagnostics := state.diagnostics ++ program.segmentOverlaps } := by
  have reports := built.segmentOverlaps
  refine ⟨_, built.segmentsInOrder.filter _, fun segment => ?_, reports.imp ?_,
    reports.length_eq.symm, fun state same => ?_⟩
  · simp only [List.mem_filter, mem_segmentsInOrder, decide_eq_true_eq]
  · rintro segment finding ⟨reached, member, inside, furthest, found⟩
    exact ⟨reached, mem_segmentsInOrder.mp member, inside,
      fun other listed => furthest other (mem_segmentsInOrder.mpr listed), found⟩
  · rw [Analysis.checkSegments, Program.segmentOverlaps, Program.segmentOverlaps,
      Program.segmentsInOrder, Program.segmentsInOrder, same]

/-- Segments of two images, not in the order of their starts. One is empty, and one starts behind the
first of its image and inside the one that reaches furthest. -/
def layered : Program where
  images := #[.fresh 0 "main" (Array.replicate 16 0), .fresh 1 "other" (Array.replicate 4 0)]
  segments := [⟨0, "tail", "DATA", 0, 12, 4⟩, ⟨1, "outer", "CODE", 0, 0, 12⟩,
    ⟨2, "apart", "CODE", 1, 0, 4⟩, ⟨3, "inner", "CODE", 0, 4, 2⟩, ⟨4, "late", "DATA", 0, 8, 6⟩,
    ⟨5, "gap", "DATA", 0, 4, 0⟩]
  groups := []
  externals := []
  publics := []
  frameBase := none

theorem layered_built : layered.Built := by
  have main := Built.empty.addImage "main" (Array.replicate 16 0)
  have other := main.addImage "other" (Array.replicate 4 0)
  have tail := other.addSegment "tail" "DATA" 0 12 4
  have outer := tail.addSegment "outer" "CODE" 0 0 12
  have apart := outer.addSegment "apart" "CODE" 1 0 4
  have inner := apart.addSegment "inner" "CODE" 0 4 2
  have late := inner.addSegment "late" "DATA" 0 8 6
  exact late.addSegment "gap" "DATA" 0 4 0

theorem layered_segmentsInOrder : layered.segmentsInOrder =
    [⟨1, "outer", "CODE", 0, 0, 12⟩, ⟨3, "inner", "CODE", 0, 4, 2⟩, ⟨5, "gap", "DATA", 0, 4, 0⟩,
      ⟨4, "late", "DATA", 0, 8, 6⟩, ⟨0, "tail", "DATA", 0, 12, 4⟩, ⟨2, "apart", "CODE", 1, 0, 4⟩] := by
  simp [segmentsInOrder, layered, List.mergeSort, Segment.precedes]

theorem layered_segment_overlaps_reported :
    let state := Analysis.fresh layered {}
    layered.Built ∧
      layered.segmentOverlaps.map Diagnostic.message =
        ["segment inner [00004..00006) overlaps outer [00000..0000C)",
          "segment gap [00004..00004) overlaps outer [00000..0000C)",
          "segment late [00008..0000E) overlaps outer [00000..0000C)",
          "segment tail [0000C..00010) overlaps late [00008..0000E)"] ∧
      (∃ overlapped : List Segment, overlapped.length = 4 ∧
        List.Forall₂ (Segment.Reports layered.segments) overlapped layered.segmentOverlaps) ∧
      state.checkSegments.diagnostics = layered.segmentOverlaps := by
  intro state
  obtain ⟨overlapped, -, -, reports, number, added⟩ := segment_overlaps_reported layered_built
  have messages : layered.segmentOverlaps.map Diagnostic.message =
      ["segment inner [00004..00006) overlaps outer [00000..0000C)",
        "segment gap [00004..00004) overlaps outer [00000..0000C)",
        "segment late [00008..0000E) overlaps outer [00000..0000C)",
        "segment tail [0000C..00010) overlaps late [00008..0000E)"] := by
    rw [Program.segmentOverlaps, layered_segmentsInOrder]
    decide +kernel
  have count : layered.segmentOverlaps.length = 4 := by
    simpa using congrArg List.length messages
  refine ⟨layered_built, messages, ⟨overlapped, number.symm.trans count, reports⟩, ?_⟩
  rw [added state rfl]
  rfl

end Program

end RealMode
