import RealMode.Fault

/-! A binary heap over an order that the caller supplies.

Entries carry the number of their arrival, which decides between entries of equal rank, so that these
leave in the order in which they came. The children of the entry at place `i` stand at `2 * i + 1` and
`2 * i + 2`. -/

set_option autoImplicit false

namespace RealMode

namespace Heap

section Sifting

variable {β : Type} {size : Nat} (compare : β → β → Ordering)

def less (entries : Vector β size) (left right : Fin size) : Bool :=
  compare (entries.get left) (entries.get right) == .lt

def exchange (entries : Vector β size) (left right : Fin size) : Vector β size := entries.swap left right

def parent (child : Fin size) : Fin size := ⟨(child.val - 1) / 2, by omega⟩

theorem parent_lt {child : Fin size} (inner : 0 < child.val) : (parent child).val < child.val := by
  simp only [parent]
  omega

/-- Lets an entry rise until its parent does not come after it. -/
def siftUp (entries : Vector β size) (child : Fin size) : Vector β size :=
  if inner : 0 < child.val then
    if less compare entries child (parent child) then
      have := parent_lt inner
      siftUp (exchange entries child (parent child)) (parent child)
    else entries
  else entries
termination_by child.val

/-- The better of two places: a candidate behind the last entry is none. -/
def earlier (entries : Vector β size) (best : Fin size) (candidate : Nat) : Fin size :=
  if inside : candidate < size then
    if less compare entries ⟨candidate, inside⟩ best then ⟨candidate, inside⟩ else best
  else best

/-- The place of the first to leave among an entry and its children, as far as it has any. -/
def smallest (entries : Vector β size) (place : Fin size) : Fin size :=
  let left := 2 * place.val + 1
  let right := left + 1
  earlier compare entries (earlier compare entries place left) right

theorem earlier_eq_or (entries : Vector β size) (best : Fin size) (candidate : Nat) :
    earlier compare entries best candidate = best ∨
      (earlier compare entries best candidate).val = candidate ∧
        less compare entries (earlier compare entries best candidate) best = true := by
  unfold earlier
  split
  · split
    · rename_i comes
      exact .inr ⟨rfl, comes⟩
    · exact .inl rfl
  · exact .inl rfl

theorem smallest_eq_or (entries : Vector β size) (place : Fin size) :
    smallest compare entries place = place ∨
      (smallest compare entries place).val = 2 * place.val + 1 ∨
        (smallest compare entries place).val = 2 * place.val + 2 := by
  rw [smallest]
  rcases earlier_eq_or compare entries place (2 * place.val + 1) with same | left
  · rw [same]
    rcases earlier_eq_or compare entries place (2 * place.val + 1 + 1) with still | right
    · exact .inl still
    · exact .inr (.inr right.1)
  · rcases earlier_eq_or compare entries (earlier compare entries place (2 * place.val + 1))
      (2 * place.val + 1 + 1) with still | right
    · exact .inr (.inl (by rw [still, left.1]))
    · exact .inr (.inr right.1)

/-- Lets an entry sink until none of its children comes before it. -/
def siftDown (entries : Vector β size) (place : Fin size) : Vector β size :=
  let least := smallest compare entries place
  if same : least = place then entries
  else
    have : place.val < least.val := by
      have := (smallest_eq_or compare entries place).resolve_left same
      omega
    siftDown (exchange entries place least) least
termination_by size - place.val

/-- Takes out the root. The last entry takes its place and sinks. -/
def takeRoot {last : Nat} (entries : Vector β (last + 1)) : β × Vector β last :=
  let swapped := exchange entries 0 (Fin.last last)
  let rest : Vector β last := swapped.pop
  (swapped.back, if filled : 0 < last then siftDown compare rest ⟨0, filled⟩ else rest)

end Sifting

end Heap

/-- Numbered entries, and the number for the next one. -/
structure Heap (α : Type) (order : α → α → Ordering) where
  length : Nat
  entries : Vector (Nat × α) length
  sequence : Nat
  deriving Repr

namespace Heap

variable {α : Type}

/-- By the order of the items, and by the number of their arrival among equals. -/
def precedence (order : α → α → Ordering) (left right : Nat × α) : Ordering :=
  (order left.2 right.2).then (compare left.1 right.1)

variable {order : α → α → Ordering}

def empty : Heap α order := ⟨0, #v[], 0⟩

def enqueue (heap : Heap α order) (item : α) : Heap α order :=
  ⟨heap.length + 1,
    siftUp (precedence order) (heap.entries.push (heap.sequence, item)) (Fin.last heap.length),
    heap.sequence + 1⟩

def dequeue : Heap α order → Except Fault α × Heap α order
  | ⟨0, entries, sequence⟩ => (.error .emptyQueue, ⟨0, entries, sequence⟩)
  | ⟨last + 1, entries, sequence⟩ =>
      let (root, rest) := takeRoot (precedence order) entries
      (.ok root.2, ⟨last, rest, sequence⟩)

def peek? (heap : Heap α order) : Option α := heap.entries[0]?.map Prod.snd

def isEmpty (heap : Heap α order) : Bool := heap.length == 0

/-- The items in the order of their places. -/
def items (heap : Heap α order) : List α := heap.entries.toList.map Prod.snd

def text (heap : Heap α order) : String :=
  "Worklist \x7b len: " ++ Numeral.decimal heap.length ++ ", sequence: " ++
    Numeral.decimal heap.sequence ++ " \x7d"

end Heap

end RealMode
