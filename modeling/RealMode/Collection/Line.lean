/-! Lines of waiting items: the first to arrive is the first to leave. A line is never empty. -/

set_option autoImplicit false

namespace RealMode

variable {α : Type}

/-- Waiting items. Those that arrived last stand in `back`, latest first, until the ones before
them have left. -/
structure Line (α : Type) where
  first : α
  front : List α
  back : List α
  deriving Repr

namespace Line

def single (item : α) : Line α := ⟨item, [], []⟩

def push (line : Line α) (item : α) : Line α := { line with back := item :: line.back }

/-- The items in the order of their arrival. -/
def toList (line : Line α) : List α := line.first :: (line.front ++ line.back.reverse)

/-- The line behind its first item, if there is one. -/
def rest? (line : Line α) : Option (Line α) :=
  match line.front with
  | item :: front => some ⟨item, front, line.back⟩
  | [] =>
      match line.back.reverse with
      | item :: front => some ⟨item, front, []⟩
      | [] => none

@[simp] theorem toList_single (item : α) : (single item).toList = [item] := rfl

@[simp] theorem toList_push (line : Line α) (item : α) :
    (line.push item).toList = line.toList ++ [item] := by
  simp [push, toList]

/-- What stays behind the first item is the line without it. -/
theorem cons_flatMap_rest? (line : Line α) :
    line.first :: line.rest?.toList.flatMap toList = line.toList := by
  unfold rest? toList
  split
  · simp_all
  · split <;> simp_all

end Line

end RealMode
