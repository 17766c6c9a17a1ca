import RealMode.Collection.Line
import RealMode.Collection.Stable
import RealMode.Fault

/-! A priority queue in which items of equal rank leave in the order of their arrival.

Each rank has a line of its own, so that an arrival passes the lines before its own and not the
items in them. The items in the order in which they leave are stably sorted. -/

set_option autoImplicit false

namespace RealMode

variable {α : Type}

/-- Lines of items by ascending rank, and the number of items that ever arrived. -/
structure Queue (α : Type) (order : α → α → Ordering) where
  lines : List (Line α)
  arrivals : Nat
  deriving Repr

namespace Queue

/-- Puts an item into the line of its rank. -/
def enter (order : α → α → Ordering) (item : α) : List (Line α) → List (Line α)
  | [] => [.single item]
  | line :: rest =>
      match order line.first item with
      | .lt => line :: enter order item rest
      | .eq => line.push item :: rest
      | .gt => .single item :: line :: rest

variable {order : α → α → Ordering}

def empty : Queue α order := ⟨[], 0⟩

def enqueue (queue : Queue α order) (item : α) : Queue α order :=
  ⟨enter order item queue.lines, queue.arrivals + 1⟩

/-- The items in the order in which they leave. -/
def toList (queue : Queue α order) : List α := queue.lines.flatMap Line.toList

/-- The next item to leave, and what stays. -/
def next? (queue : Queue α order) : Option (α × Queue α order) :=
  match queue.lines with
  | [] => none
  | line :: rest => some (line.first, { queue with lines := line.rest?.toList ++ rest })

def dequeue (queue : Queue α order) : Except Fault α × Queue α order :=
  match queue.next? with
  | some (item, rest) => (.ok item, rest)
  | none => (.error .emptyQueue, queue)

def peek? (queue : Queue α order) : Option α := queue.lines.head?.map Line.first

/-- Every line holds items of one rank, and the ranks of the lines ascend. -/
structure Ranked (order : α → α → Ordering) (lines : List (Line α)) : Prop where
  alike : ∀ line ∈ lines, ∀ item ∈ line.toList, order line.first item = .eq
  ascending : lines.Pairwise fun left right => order left.first right.first = .lt

@[simp] theorem toList_empty : (empty : Queue α order).toList = [] := rfl

theorem next?_eq_none_iff {queue : Queue α order} : queue.next? = none ↔ queue.toList = [] := by
  unfold next? toList
  cases queue.lines with
  | nil => simp
  | cons line rest => simp [Line.toList]

/-- The next item is the first of the items, and the others stay. -/
theorem toList_of_next? {queue rest : Queue α order} {item : α}
    (next : queue.next? = some (item, rest)) : queue.toList = item :: rest.toList := by
  unfold next? at next
  unfold toList
  cases found : queue.lines with
  | nil => simp [found] at next
  | cons line others =>
      simp only [found, Option.some.injEq, Prod.mk.injEq] at next
      obtain ⟨rfl, rfl⟩ := next
      rw [List.flatMap_append, ← List.cons_append, line.cons_flatMap_rest?, List.flatMap_cons]

theorem Ranked.tail {line : Line α} {rest : List (Line α)} (ranked : Ranked order (line :: rest)) :
    Ranked order rest :=
  ⟨fun other member => ranked.alike other (List.mem_cons_of_mem line member),
    (List.pairwise_cons.mp ranked.ascending).2⟩

/-- An item that does not come before any item of a line passes it. -/
theorem insert_passes {item : α} {left right : List α}
    (passes : ∀ other ∈ left, order other item ≠ .gt) :
    Stable.insert order item (left ++ right) = left ++ Stable.insert order item right := by
  induction left with
  | nil => rfl
  | cons head rest ih =>
      rw [List.cons_append, Stable.insert, if_neg (passes head List.mem_cons_self),
        ih fun other member => passes other (List.mem_cons_of_mem head member), List.cons_append]

variable [Std.TransCmp order]

/-- Entering the line of its rank is stable insertion. -/
theorem flatMap_enter {lines : List (Line α)} (item : α) (ranked : Ranked order lines) :
    (enter order item lines).flatMap Line.toList =
      Stable.insert order item (lines.flatMap Line.toList) := by
  induction lines with
  | nil => rfl
  | cons line rest ih =>
      have rankOf : ∀ other ∈ line.toList, order other item = order line.first item :=
        fun other member => (Std.TransCmp.congr_left
          (ranked.alike line List.mem_cons_self other member)).symm
      cases compared : order line.first item with
      | lt =>
          rw [enter, compared, List.flatMap_cons, List.flatMap_cons, ih ranked.tail, insert_passes]
          intro other member
          simp [rankOf other member, compared]
      | eq =>
          have behind : Stable.insert order item (rest.flatMap Line.toList) =
              item :: rest.flatMap Line.toList := by
            cases rest with
            | nil => rfl
            | cons next others =>
                have above : order next.first item = .gt :=
                  Std.OrientedCmp.gt_of_lt (Std.TransCmp.lt_of_eq_of_lt
                    (Std.OrientedCmp.eq_symm compared)
                    ((List.pairwise_cons.mp ranked.ascending).1 next List.mem_cons_self))
                rw [List.flatMap_cons, Line.toList, List.cons_append, Stable.insert, if_pos above]
          rw [enter, compared, List.flatMap_cons, List.flatMap_cons, insert_passes, behind,
            Line.toList_push, List.append_assoc, List.singleton_append]
          intro other member
          simp [rankOf other member, compared]
      | gt =>
          rw [enter, compared, List.flatMap_cons, List.flatMap_cons, Line.toList_single,
            List.singleton_append]
          rw [Line.toList, List.cons_append, Stable.insert, if_pos compared]

/-- The rank of a line is that of the item which entered, or it is not new. -/
theorem first_of_mem_enter {lines : List (Line α)} {item : α} {line : Line α}
    (member : line ∈ enter order item lines) :
    order line.first item = .eq ∨ ∃ other ∈ lines, line.first = other.first := by
  induction lines with
  | nil =>
      simp only [enter, List.mem_singleton] at member
      exact .inl (by rw [member]; exact Std.ReflCmp.compare_self)
  | cons head rest ih =>
      rw [enter] at member
      cases compared : order head.first item with
      | lt =>
          rw [compared] at member
          rcases List.mem_cons.mp member with rfl | member
          · exact .inr ⟨line, List.mem_cons_self, rfl⟩
          · rcases ih member with same | ⟨other, found, same⟩
            · exact .inl same
            · exact .inr ⟨other, List.mem_cons_of_mem head found, same⟩
      | eq =>
          rw [compared] at member
          rcases List.mem_cons.mp member with rfl | member
          · exact .inr ⟨head, List.mem_cons_self, rfl⟩
          · exact .inr ⟨line, List.mem_cons_of_mem head member, rfl⟩
      | gt =>
          rw [compared] at member
          rcases List.mem_cons.mp member with rfl | member
          · exact .inl Std.ReflCmp.compare_self
          · exact .inr ⟨line, member, rfl⟩

/-- The lines stay ranked when an item enters. -/
theorem Ranked.enter {lines : List (Line α)} (item : α) (ranked : Ranked order lines) :
    Ranked order (enter order item lines) := by
  induction lines with
  | nil =>
      refine ⟨?_, List.pairwise_singleton _ _⟩
      intro line member other found
      rw [Queue.enter, List.mem_singleton] at member
      subst member
      rw [Line.toList_single, List.mem_singleton] at found
      exact found ▸ Std.ReflCmp.compare_self
  | cons line rest ih =>
      obtain ⟨above, ascending⟩ := List.pairwise_cons.mp ranked.ascending
      have alikeTail := ranked.tail.alike
      rw [Queue.enter]
      cases compared : order line.first item with
      | lt =>
          have entered := ih ranked.tail
          refine ⟨?_, List.pairwise_cons.mpr ⟨?_, entered.ascending⟩⟩
          · intro other member
            rcases List.mem_cons.mp member with rfl | member
            · exact ranked.alike other List.mem_cons_self
            · exact entered.alike other member
          · intro other member
            rcases first_of_mem_enter member with same | ⟨known, found, same⟩
            · exact Std.TransCmp.lt_of_lt_of_eq compared (Std.OrientedCmp.eq_symm same)
            · exact same ▸ above known found
      | eq =>
          refine ⟨?_, List.pairwise_cons.mpr ⟨above, ascending⟩⟩
          intro other member waiting found
          rcases List.mem_cons.mp member with rfl | member
          · rw [Line.toList_push, List.mem_append, List.mem_singleton] at found
            rcases found with found | rfl
            · exact ranked.alike line List.mem_cons_self waiting found
            · exact compared
          · exact alikeTail other member waiting found
      | gt =>
          have below : order item line.first = .lt := Std.OrientedCmp.gt_iff_lt.mp compared
          refine ⟨?_, List.pairwise_cons.mpr ⟨?_, ranked.ascending⟩⟩
          · intro other member
            rcases List.mem_cons.mp member with rfl | member
            · intro waiting found
              rw [Line.toList_single, List.mem_singleton] at found
              exact found ▸ Std.ReflCmp.compare_self
            · exact ranked.alike other member
          · intro other member
            rcases List.mem_cons.mp member with rfl | member
            · exact below
            · exact Std.TransCmp.lt_trans below (above other member)

/-- On ranked lines an arrival is stably inserted. -/
theorem toList_enqueue {queue : Queue α order} (item : α) (ranked : Ranked order queue.lines) :
    (queue.enqueue item).toList = Stable.insert order item queue.toList :=
  flatMap_enter item ranked

end Queue

end RealMode
