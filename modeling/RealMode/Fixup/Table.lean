import RealMode.Attempt
import RealMode.Collection.Search
import RealMode.Fixup

/-! The fix-ups of an image in the order of their places.

Fix-ups of a table are not meant to share a byte, so the neighbours of a new one decide whether it
fits, and the fix-ups that meet a range stand between two places that are searched for. -/

set_option autoImplicit false

namespace RealMode

/-- Fix-ups by ascending start. A sealed table takes no more of them. -/
structure FixupTable where
  entries : List Fixup
  isSealed : Bool
  deriving DecidableEq, Repr

namespace FixupTable

def empty : FixupTable := ⟨[], false⟩

/-- The number of fix-ups that start before an offset. -/
def placeOf (table : FixupTable) (start : Nat) : Nat :=
  Search.partitionPoint (·.start < start) table.entries

/-- The fix-ups that start before an offset. -/
def before (table : FixupTable) (start : Nat) : List Fixup := table.entries.take (table.placeOf start)

/-- The fix-ups that start at an offset or behind it. -/
def notBefore (table : FixupTable) (start : Nat) : List Fixup := table.entries.drop (table.placeOf start)

/-- The neighbour of a new fix-up that shares a byte with it, going by where the first of them ends. -/
def clash? (table : FixupTable) (fixup : Fixup) : Option Fixup :=
  ((table.before fixup.start).getLast?.filter (fixup.start < ·.stop)).or
    ((table.notBefore fixup.start).head?.filter (·.start < fixup.stop))

/-- Enters a fix-up at its place. -/
def add (table : FixupTable) (fixup : Fixup) : Attempt FixupTable :=
  if table.isSealed then
    .error (.sealedTable fixup.start) table
  else
    match table.clash? fixup with
    | some existing => .error (.overlappingFixup fixup.start existing.start) table
    | none =>
        .ok { table with entries := table.before fixup.start ++ fixup :: table.notBefore fixup.start }

/-- The table that takes no more fix-ups. -/
def close (table : FixupTable) : FixupTable := { table with isSealed := true }

/-- The fix-ups that meet the range from `start` up to `stop`, which are those behind the last that ends
before the range and in front of the first that begins behind it. -/
def overlapping (table : FixupTable) (start stop : Nat) : List Fixup :=
  let low := Search.partitionPoint (·.stop ≤ start) table.entries
  let high := Search.partitionPoint (·.start < stop) table.entries
  (table.entries.take (max high low)).drop low

/-- The fix-up that starts at an offset. -/
def at? (table : FixupTable) (start : Nat) : Option Fixup :=
  match Search.binarySearch (fun fixup : Fixup => compare fixup.start start) table.entries with
  | .ok place => table.entries[place]?
  | .error _ => none

end FixupTable

end RealMode
