import RealMode.Diagnostic
import RealMode.Program

/-! Overlaps between the segments of an image. -/

set_option autoImplicit false

namespace RealMode

namespace Segment

/-- Whether a segment comes before another by image, start and number. -/
def precedes (left right : Segment) : Bool :=
  left.image < right.image ||
    (left.image = right.image &&
      (left.start < right.start || (left.start = right.start && left.id ≤ right.id)))

def overlapMessage (segment reached : Segment) : String :=
  "segment " ++ segment.name ++ " [" ++ rangeText segment.start segment.stop ++ ") overlaps " ++
    reached.name ++ " [" ++ rangeText reached.start reached.stop ++ ")"

def overlapFinding (segment reached : Segment) : Diagnostic :=
  .found (some ⟨.segment segment.id, 0⟩) .segmentOverlap (segment.overlapMessage reached)

/-- Reports each of the segments that starts before the one that reaches furthest so far ends. -/
def overlapsBehind (reached : Segment) : List Segment → List Diagnostic
  | [] => []
  | segment :: rest =>
      if reached.image = segment.image ∧ segment.start < reached.stop then
        segment.overlapFinding reached ::
          overlapsBehind (if reached.stop < segment.stop then segment else reached) rest
      else
        overlapsBehind segment rest

end Segment

namespace Program

def segmentsInOrder (program : Program) : List Segment :=
  program.segments.mergeSort Segment.precedes

/-- The overlaps of segments, in the order of the segments that start inside an earlier one. -/
def segmentOverlaps (program : Program) : List Diagnostic :=
  match program.segmentsInOrder with
  | [] => []
  | first :: rest => Segment.overlapsBehind first rest

end Program

end RealMode
