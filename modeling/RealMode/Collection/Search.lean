/-! Binary search in a list.

The search halves a range of places until one is left, and never looks at a place twice to be sure: on a list
that is not in order it ends somewhere. -/

set_option autoImplicit false

namespace RealMode.Search

variable {α : Type}

/-- The one place that is left of `size` places from `base` on. What comes after the key is left behind, and
with anything else in the middle the first half is. -/
def narrow (compare : α → Ordering) (items : List α) (base size : Nat) : Nat :=
  if 1 < size then
    let half := size / 2
    let middle := base + half
    let above := items[middle]?.any fun item => compare item = .gt
    narrow compare items (if above then base else middle) (size - half)
  else base
termination_by size

/-- The place of an item equal to the key, or the place at which such an item could be entered. -/
def binarySearch (compare : α → Ordering) (items : List α) : Except Nat Nat :=
  let base := narrow compare items 0 items.length
  match items[base]?.map compare with
  | none => .error base
  | some .eq => .ok base
  | some .lt => .error (base + 1)
  | some .gt => .error base

/-- The number of items in front of the first that fails a test, if all items behind it fail it, too. -/
def partitionPoint (test : α → Bool) (items : List α) : Nat :=
  match binarySearch (fun item => if test item then .lt else .gt) items with
  | .ok place => place
  | .error place => place

end RealMode.Search
