import RealMode.Collection.Queue

/-! What a queue holds, whatever the order of its lines, in which order it holds items of one rank,
and what becomes of it when its items change and keep their rank. -/

set_option autoImplicit false

namespace RealMode

/-- The line with something else in the place of each item. -/
def Line.map {α : Type} (change : α → α) (line : Line α) : Line α :=
  ⟨change line.first, line.front.map change, line.back.map change⟩

theorem Line.toList_map {α : Type} (change : α → α) (line : Line α) :
    (line.map change).toList = line.toList.map change := by
  simp [map, toList]

theorem Line.rest?_map {α : Type} (change : α → α) (line : Line α) :
    (line.map change).rest? = line.rest?.map (Line.map change) := by
  obtain ⟨first, front, back⟩ := line
  cases front with
  | cons item front => rfl
  | nil =>
      simp only [map, rest?, List.map_nil, ← List.map_reverse]
      cases back.reverse with
      | nil => rfl
      | cons item front => rfl

namespace Queue

variable {α : Type} {order : α → α → Ordering}

theorem enter_perm (item : α) (lines : List (Line α)) :
    ((enter order item lines).flatMap Line.toList).Perm (item :: lines.flatMap Line.toList) := by
  induction lines with
  | nil => exact .refl _
  | cons line rest ih =>
      rw [enter]
      cases order line.first item with
      | lt =>
          rw [List.flatMap_cons, List.flatMap_cons]
          exact (ih.append_left line.toList).trans List.perm_middle
      | eq =>
          rw [List.flatMap_cons, List.flatMap_cons, Line.toList_push, List.append_assoc]
          exact List.perm_middle
      | gt => exact .refl _

theorem toList_enqueue_perm (queue : Queue α order) (item : α) :
    (queue.enqueue item).toList.Perm (item :: queue.toList) :=
  enter_perm item queue.lines

theorem toList_enqueueAll_perm (queue : Queue α order) (items : List α) :
    (items.foldl enqueue queue).toList.Perm (items ++ queue.toList) := by
  induction items generalizing queue with
  | nil => exact .refl _
  | cons item rest ih =>
      exact (ih (queue.enqueue item)).trans
        (((queue.toList_enqueue_perm item).append_left rest).trans List.perm_middle)

theorem mem_enqueueAll {queue : Queue α order} {items : List α} {item : α} :
    item ∈ (items.foldl enqueue queue).toList ↔ item ∈ items ∨ item ∈ queue.toList := by
  rw [(queue.toList_enqueueAll_perm items).mem_iff, List.mem_append]

theorem Ranked.empty : Ranked order (empty : Queue α order).lines :=
  ⟨fun _ member => (by cases member), .nil⟩

section Order

variable [Std.TransCmp order]

theorem Ranked.enqueueAll {queue : Queue α order} (ranked : Ranked order queue.lines)
    (items : List α) : Ranked order (items.foldl enqueue queue).lines := by
  induction items generalizing queue with
  | nil => exact ranked
  | cons item rest ih => exact ih (ranked.enter item)

/-- A line that has lost its first item is of the same rank. -/
theorem Ranked.next? {queue rest : Queue α order} {item : α} (ranked : Ranked order queue.lines)
    (next : queue.next? = some (item, rest)) : Ranked order rest.lines := by
  unfold Queue.next? at next
  cases found : queue.lines with
  | nil => simp [found] at next
  | cons line others =>
      simp only [found, Option.some.injEq, Prod.mk.injEq] at next
      obtain ⟨-, rfl⟩ := next
      rw [found] at ranked
      obtain ⟨above, ascending⟩ := List.pairwise_cons.mp ranked.ascending
      cases left : line.rest? with
      | none => exact ranked.tail
      | some shorter =>
          have within : ∀ item ∈ shorter.toList, order line.first item = .eq := by
            intro item member
            refine ranked.alike line List.mem_cons_self item ?_
            rw [← line.cons_flatMap_rest?, left]
            simpa using .inr member
          have rank (item : α) : order shorter.first item = order line.first item :=
            (Std.TransCmp.congr_left (within shorter.first (by simp [Line.toList]))).symm
          refine ⟨fun other member waiting listed => ?_, List.pairwise_cons.mpr ⟨?_, ascending⟩⟩
          · rcases List.mem_cons.mp member with rfl | later
            · exact (rank waiting).trans (within waiting listed)
            · exact ranked.tail.alike other later waiting listed
          · intro other member
            exact (rank other.first).trans (above other member)

/-- The item that leaves next comes after none of those that stay. -/
theorem Ranked.order_of_next? {queue rest : Queue α order} {item other : α}
    (ranked : Ranked order queue.lines) (next : queue.next? = some (item, rest))
    (stays : other ∈ rest.toList) : order item other ≠ .gt := by
  have items := toList_of_next? next
  unfold Queue.next? at next
  cases found : queue.lines with
  | nil => simp [found] at next
  | cons line others =>
      simp only [found, Option.some.injEq, Prod.mk.injEq] at next
      rw [found] at ranked
      have waits : other ∈ line.toList ∨ ∃ later ∈ others, other ∈ later.toList := by
        have held : other ∈ queue.toList := items ▸ List.mem_cons_of_mem item stays
        simpa [toList, found] using held
      rw [← next.1]
      rcases waits with own | ⟨later, member, listed⟩
      · simp [ranked.alike line List.mem_cons_self other own]
      · have above := (List.pairwise_cons.mp ranked.ascending).1 later member
        have alike := ranked.tail.alike later member other listed
        simp [Std.TransCmp.lt_of_lt_of_eq above alike]

/-- An item that comes before no other one stands behind all of them. -/
theorem toList_enqueue_last {queue : Queue α order} (ranked : Ranked order queue.lines) {item : α}
    (last : ∀ other, order other item ≠ .gt) :
    (queue.enqueue item).toList = queue.toList ++ [item] := by
  have passes : Stable.insert order item (queue.toList ++ []) =
      queue.toList ++ Stable.insert order item [] := insert_passes fun other _ => last other
  rw [List.append_nil] at passes
  rw [toList_enqueue item ranked, passes]
  rfl

end Order

/-- An arrival does not show among items of another sort. -/
theorem filter_enqueue {test : α → Bool} {item : α} (other : test item = false)
    (queue : Queue α order) : (queue.enqueue item).toList.filter test = queue.toList.filter test := by
  have entered (lines : List (Line α)) : ((enter order item lines).flatMap Line.toList).filter test =
      (lines.flatMap Line.toList).filter test := by
    induction lines with
    | nil => simp [enter, other]
    | cons line rest ih =>
        rw [enter]
        cases order line.first item with
        | lt => simp only [List.flatMap_cons, List.filter_append, ih]
        | eq => simp [other]
        | gt => simp [other]
  exact entered queue.lines

theorem filter_enqueueAll {test : α → Bool} {items : List α}
    (others : ∀ item ∈ items, test item = false) (queue : Queue α order) :
    (items.foldl enqueue queue).toList.filter test = queue.toList.filter test := by
  induction items generalizing queue with
  | nil => rfl
  | cons item rest ih =>
      rw [List.foldl_cons, ih fun other member => others other (List.mem_cons_of_mem item member),
        filter_enqueue (others item List.mem_cons_self)]

/-- The queue with something else in the place of each item. -/
def map (change : α → α) (queue : Queue α order) : Queue α order :=
  { queue with lines := queue.lines.map (Line.map change) }

theorem toList_map (change : α → α) (queue : Queue α order) :
    (queue.map change).toList = queue.toList.map change := by
  simp [map, toList, List.flatMap_map, List.map_flatMap, Line.toList_map]

theorem next?_map (change : α → α) (queue : Queue α order) :
    (queue.map change).next? = queue.next?.map (Prod.map change (map change)) := by
  unfold next?
  cases found : queue.lines with
  | nil => simp [map, found]
  | cons line rest =>
      have first : (line.map change).first = change line.first := rfl
      cases others : line.rest? <;> simp [map, found, Line.rest?_map, others, first]

section Alike

variable {change : α → α} (alike : ∀ left right, order (change left) (change right) = order left right)

include alike

theorem enter_map (item : α) (lines : List (Line α)) :
    enter order (change item) (lines.map (Line.map change)) =
      (enter order item lines).map (Line.map change) := by
  induction lines with
  | nil => rfl
  | cons line rest ih =>
      have same : order (line.map change).first (change item) = order line.first item := alike ..
      rw [List.map_cons, enter, enter, same]
      cases order line.first item with
      | lt => rw [ih]; rfl
      | eq | gt => rfl

/-- A change that keeps the order of items keeps their places in the queue. -/
theorem enqueue_map (queue : Queue α order) (item : α) :
    (queue.map change).enqueue (change item) = (queue.enqueue item).map change :=
  congrArg (Queue.mk · _) (enter_map alike item queue.lines)

theorem enqueueAll_map (queue : Queue α order) (items : List α) :
    (items.map change).foldl enqueue (queue.map change) = (items.foldl enqueue queue).map change := by
  induction items generalizing queue with
  | nil => rfl
  | cons item rest ih =>
      rw [List.map_cons, List.foldl_cons, List.foldl_cons, enqueue_map alike]
      exact ih (queue.enqueue item)

end Alike

end Queue

end RealMode
