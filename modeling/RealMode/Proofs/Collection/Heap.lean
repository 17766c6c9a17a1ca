import Mathlib.Data.List.Induction
import RealMode.Proofs.Collection.Requests
import RealMode.Proofs.Collection.Sifting

/-! A heap of numbered entries is a stable queue.

Nothing comes before the root, and among entries of equal rank the one with the lowest number is the
earliest. So the root is what would be taken from a plain list of what waits, whatever the places of the
other entries are, and a heap answers as a queue does. -/

set_option autoImplicit false

namespace RealMode.Heap

variable {α : Type} {order : α → α → Ordering}

theorem isLE_precedence_iff {left right : Nat × α} :
    (precedence order left right).isLE = true ↔
      order left.2 right.2 = .lt ∨ order left.2 right.2 = .eq ∧ left.1 ≤ right.1 := by
  rw [precedence]
  cases order left.2 right.2 <;> simp [Ordering.then, Nat.isLE_compare]

instance [Std.TransCmp order] : Std.TransCmp (precedence order) where
  eq_swap {left right} := by
    have swapped : order left.2 right.2 = (order right.2 left.2).swap := Std.OrientedCmp.eq_swap
    have numbers : compare left.1 right.1 = (compare right.1 left.1).swap := Std.OrientedCmp.eq_swap
    rw [precedence, precedence, swapped, numbers, Ordering.swap_then]
  isLE_trans {left middle right} first second := by
    rw [isLE_precedence_iff] at first second ⊢
    rcases first with first | ⟨first, numbers⟩
    · rcases second with second | ⟨second, -⟩
      · exact .inl (Std.TransCmp.lt_trans first second)
      · exact .inl (Std.TransCmp.lt_of_lt_of_eq first second)
    · rcases second with second | ⟨second, also⟩
      · exact .inl (Std.TransCmp.lt_of_eq_of_lt first second)
      · exact .inr ⟨Std.TransCmp.eq_trans first second, Nat.le_trans numbers also⟩

def serve (heap : Heap α order) : Queue.Request α → Except Fault (Option α) × Heap α order
  | .enqueue item => (.ok none, heap.enqueue item)
  | .dequeue => (heap.dequeue.1.map some, heap.dequeue.2)
  | .peek => (.ok heap.peek?, heap)

/-- The entries of a heap are in order, and by their numbers they are what waits, in the order of arrival. -/
structure Holds (heap : Heap α order) (waiting : List α) : Prop where
  heaped : Heaped (precedence order) heap.entries
  arrivals : ∃ numbered : List (Nat × α), numbered.Perm heap.entries.toList ∧
    numbered.map Prod.snd = waiting ∧ numbered.Pairwise (fun left right => left.1 < right.1) ∧
    ∀ entry ∈ numbered, entry.1 < heap.sequence

theorem Holds.empty : (empty : Heap α order).Holds [] where
  heaped upper := upper.elim0
  arrivals := ⟨[], .refl _, rfl, .nil, by simp⟩

namespace Holds

section Contents

variable {heap : Heap α order} {waiting : List α} (holds : heap.Holds waiting)

include holds

theorem items_perm : heap.items.Perm waiting := by
  obtain ⟨numbered, perm, rfl, -, -⟩ := holds.arrivals
  exact (perm.map Prod.snd).symm

theorem length_eq : heap.length = waiting.length := by
  have lengths := holds.items_perm.length_eq
  simpa [items] using lengths

end Contents

variable [Std.TransCmp order]

omit [Std.TransCmp order] in
theorem entries_enqueue_perm (heap : Heap α order) (item : α) :
    (heap.enqueue item).entries.toList.Perm (heap.entries.toList ++ [(heap.sequence, item)]) := by
  have pushed : (heap.entries.push (heap.sequence, item)).toList =
      heap.entries.toList ++ [(heap.sequence, item)] := Vector.toList_push
  exact pushed ▸ siftUp_perm _ _

/-- A new entry has the highest number, and rises to its place. -/
theorem enqueue {heap : Heap α order} {waiting : List α} (holds : heap.Holds waiting) (item : α) :
    (heap.enqueue item).Holds (waiting ++ [item]) where
  heaped := heaped_siftUp _ _ (holds.heaped.push _) fun lower above =>
    absurd above.lt (Nat.not_lt.mpr (Nat.lt_succ_iff.mp lower.isLt))
  arrivals := by
    obtain ⟨numbered, perm, rfl, ascending, below⟩ := holds.arrivals
    refine ⟨numbered ++ [(heap.sequence, item)], ?_, by simp, ?_, ?_⟩
    · exact (perm.append_right _).trans (entries_enqueue_perm heap item).symm
    · refine List.pairwise_append.mpr ⟨ascending, List.pairwise_singleton _ _, ?_⟩
      simpa using below
    · intro entry member
      rcases List.mem_append.mp member with earlier | new
      · exact Nat.lt_succ_of_lt (below entry earlier)
      · rw [List.mem_singleton.mp new]
        exact Nat.lt_succ_self _

/-- The root leaves, and it is the earliest of the least items. -/
theorem dequeue {heap : Heap α order} {waiting : List α} (holds : heap.Holds waiting)
    (filled : waiting ≠ []) :
    ∃ item earlier later, waiting = earlier ++ item :: later ∧
      (∀ other ∈ earlier, order item other = .lt) ∧ (∀ other ∈ later, (order item other).isLE = true) ∧
      heap.peek? = some item ∧ heap.dequeue.1 = .ok item ∧ heap.dequeue.2.Holds (earlier ++ later) := by
  obtain ⟨length, entries, sequence⟩ := heap
  cases length with
  | zero => exact absurd (List.eq_nil_of_length_eq_zero holds.length_eq.symm) filled
  | succ last =>
      obtain ⟨numbered, perm, rfl, ascending, below⟩ := holds.arrivals
      have split := perm.trans (takeRoot_perm (precedence order) entries)
      have member : entries.get 0 ∈ numbered := split.mem_iff.mpr List.mem_cons_self
      obtain ⟨front, back, rfl⟩ := List.append_of_mem member
      have least (entry : Nat × α) (waits : entry ∈ front ++ entries.get 0 :: back) :=
        isLE_precedence_iff.mp (holds.heaped.isLE_of_mem (perm.mem_iff.mp waits))
      obtain ⟨-, -, between⟩ := List.pairwise_append.mp ascending
      have kept : (front ++ back).Sublist (front ++ entries.get 0 :: back) :=
        (List.sublist_cons_self _ _).append_left front
      have stays : (front ++ back).Perm (takeRoot (precedence order) entries).2.toList :=
        (List.perm_middle.symm.trans split).cons_inv
      refine ⟨(entries.get 0).2, front.map Prod.snd, back.map Prod.snd, by simp, ?_, ?_, ?_, ?_, ?_⟩
      · -- Whoever arrived earlier has a smaller number, so the root is not its equal.
        intro other found
        obtain ⟨entry, waits, rfl⟩ := List.mem_map.mp found
        refine (least entry (List.mem_append_left _ waits)).resolve_right fun equal => ?_
        exact absurd (between entry waits _ List.mem_cons_self) (Nat.not_lt.mpr equal.2)
      · intro other found
        obtain ⟨entry, waits, rfl⟩ := List.mem_map.mp found
        rcases least entry (List.mem_append_right _ (List.mem_cons_of_mem _ waits)) with lower | equal
        · simp [lower]
        · simp [equal.1]
      · rw [peek?, Vector.getElem?_eq_getElem (Nat.zero_lt_succ last)]
        rfl
      · simp [Heap.dequeue, takeRoot_fst]
      · exact ⟨holds.heaped.takeRoot, front ++ back, stays, by simp, ascending.sublist kept,
          fun entry waits => below entry (kept.subset waits)⟩

end Holds

/-- Without items there is nothing to show, and nothing leaves. -/
theorem Holds.nothing {heap : Heap α order} (holds : heap.Holds []) :
    heap.peek? = none ∧ heap.dequeue = (.error .emptyQueue, heap) := by
  obtain ⟨length, entries, sequence⟩ := heap
  obtain rfl : length = 0 := holds.length_eq
  exact ⟨rfl, rfl⟩

section Refinement

/-- A heap and a queue in which the same items wait. -/
structure Shows (heap : Heap α order) (queue : Queue α order) (waiting : List α) : Prop where
  numbers : heap.sequence = queue.arrivals
  heaped : heap.Holds waiting
  queued : queue.Holds waiting

theorem sequence_dequeue (heap : Heap α order) : heap.dequeue.2.sequence = heap.sequence := by
  obtain ⟨length, entries, sequence⟩ := heap
  cases length <;> rfl

variable [Std.TransCmp order]

/-- A heap answers as the queue that it shows, and shows it still. -/
theorem Shows.serve {heap : Heap α order} {queue : Queue α order} {waiting : List α}
    (shows : heap.Shows queue waiting) (request : Queue.Request α) :
    (heap.serve request).1 = (queue.serve request).1 ∧
      (heap.serve request).2.Shows (queue.serve request).2 (request.leave order waiting) := by
  obtain ⟨numbers, heaped, queued⟩ := shows
  have behind := queued.serve request
  cases request with
  | enqueue item => exact ⟨rfl, congrArg (· + 1) numbers, heaped.enqueue item, behind⟩
  | dequeue =>
      rw [Queue.serve] at behind
      rw [Heap.serve, Queue.serve]
      by_cases filled : waiting = []
      · subst filled
        rw [heaped.nothing.2, Queue.dequeue_of_nothing (queued.nothing_iff.mpr rfl)]
        exact ⟨rfl, numbers, heaped, queued⟩
      · obtain ⟨item, earlier, later, split, above, notBelow, -, left, stays⟩ := heaped.dequeue filled
        obtain ⟨rest, next, -⟩ := queued.exists_next? split above notBelow
        have leave : Queue.Request.dequeue.leave order waiting = earlier ++ later := by
          rw [Queue.Request.leave, split, Queue.takeLeast?_of_least above notBelow]
          rfl
        refine ⟨by rw [left, Queue.dequeue_of_next? next], ?_, leave ▸ stays, behind⟩
        rw [sequence_dequeue, numbers, Queue.dequeue_of_next? next, Queue.arrivals_of_next? next]
  | peek =>
      refine ⟨congrArg Except.ok ?_, numbers, heaped, behind⟩
      rw [Queue.peek?_eq]
      by_cases filled : waiting = []
      · subst filled
        rw [heaped.nothing.1, Queue.next?_eq_none_iff.mpr (queued.nothing_iff.mpr rfl), Option.map_none]
      · obtain ⟨item, earlier, later, split, above, notBelow, shown, -, -⟩ := heaped.dequeue filled
        obtain ⟨rest, next, -⟩ := queued.exists_next? split above notBelow
        rw [shown, next, Option.map_some]

/-- Behind the same requests a heap shows the queue. -/
theorem shows_serveAll (requests : List (Queue.Request α)) :
    (Queue.serveAll serve (empty : Heap α order) requests).Shows
      (Queue.serveAll Queue.serve .empty requests) (Queue.waitingAfter order requests) := by
  induction requests using List.reverseRecOn with
  | nil => exact ⟨rfl, .empty, .empty, (Stable.sort_nil order).symm⟩
  | append_singleton requests request ih =>
      rw [Queue.serveAll_concat, Queue.serveAll_concat, Queue.waitingAfter_concat]
      exact (ih.serve request).2

theorem Shows.answers {heap : Heap α order} {queue : Queue α order} {waiting : List α}
    (shows : heap.Shows queue waiting) (requests : List (Queue.Request α)) :
    Queue.answers Heap.serve heap requests = Queue.answers Queue.serve queue requests := by
  have step (server : Heap α order) (other : Queue α order) (related : ∃ waits, server.Shows other waits)
      (request : Queue.Request α) : (server.serve request).1 = (other.serve request).1 ∧
        ∃ waits, (server.serve request).2.Shows (other.serve request).2 waits := by
    obtain ⟨waits, shown⟩ := related
    exact ⟨(shown.serve request).1, _, (shown.serve request).2⟩
  exact Queue.answers_of_related step ⟨waiting, shows⟩ requests

end Refinement

/-- After any requests, what leaves a heap next is the earliest of the least items that wait, and exactly
this item leaves. It is what is shown before. Nothing leaves, and nothing changes, if nothing waits. Whatever
is asked further is answered as by the queue that keeps what waits stably sorted, and whoever asks for all
items is given them in this order. -/
theorem requests_take_least_first [Std.TransCmp order] (requests : List (Queue.Request α)) :
    let heap : Heap α order := Queue.serveAll serve empty requests
    let queue : Queue α order := Queue.serveAll Queue.serve .empty requests
    let waiting := Queue.waitingAfter order requests
    heap.items.Perm waiting ∧ heap.length = waiting.length ∧ (heap.isEmpty = true ↔ waiting = []) ∧
    (waiting ≠ [] → ∃ item earlier later, waiting = earlier ++ item :: later ∧
      (∀ other ∈ earlier, order item other = .lt) ∧
      (∀ other ∈ later, (order item other).isLE = true) ∧
      heap.peek? = some item ∧ heap.dequeue.1 = .ok item ∧
      heap.dequeue.2.items.Perm (earlier ++ later) ∧
      Queue.waitingAfter order (requests ++ [.dequeue]) = earlier ++ later) ∧
    (waiting = [] → heap.peek? = none ∧ heap.dequeue = (.error .emptyQueue, heap)) ∧
    queue.toList = Stable.sort order waiting ∧
    (∀ further, Queue.answers serve heap further = Queue.answers Queue.serve queue further) ∧
    Queue.answers serve heap (List.replicate (waiting.length + 1) .dequeue) =
      (Stable.sort order waiting).map (fun item => .ok (some item)) ++ [.error .emptyQueue] := by
  intro heap queue waiting
  have shows : heap.Shows queue waiting := shows_serveAll requests
  have size : queue.toList.length = waiting.length := by
    rw [shows.queued.sorted, (Stable.sort_perm order waiting).length_eq]
  refine ⟨shows.heaped.items_perm, shows.heaped.length_eq, ?_, fun filled => ?_, fun nothing => ?_,
    shows.queued.sorted, shows.answers, ?_⟩
  · rw [isEmpty, shows.heaped.length_eq, beq_iff_eq, List.length_eq_zero_iff]
  · obtain ⟨item, earlier, later, split, above, notBelow, shown, left, stays⟩ :=
      shows.heaped.dequeue filled
    refine ⟨item, earlier, later, split, above, notBelow, shown, left, stays.items_perm, ?_⟩
    have taken := Queue.takeLeast?_of_least above notBelow
    rw [← split] at taken
    rw [Queue.waitingAfter_concat, Queue.Request.leave, taken]
    rfl
  · have holds := shows.heaped
    rw [nothing] at holds
    exact holds.nothing
  · rw [shows.answers, queue.answers_dequeue size, shows.queued.sorted]

/-- Of five arrivals one has left. Two of the others are least. They leave first, the earlier one before the
later one, and then the two that wait longer. -/
theorem sample_requests_take_least_first :
    let order : Nat × Nat → Nat × Nat → Ordering := compareOn Prod.fst
    let requests : List (Queue.Request (Nat × Nat)) := [.enqueue (2, 0), .enqueue (1, 1), .dequeue,
      .enqueue (2, 2), .peek, .enqueue (1, 3), .enqueue (1, 4)]
    let heap : Heap (Nat × Nat) order := Queue.serveAll serve empty requests
    let waiting := Queue.waitingAfter order requests
    Std.TransCmp order ∧ waiting = [(2, 0), (2, 2), (1, 3), (1, 4)] ∧
      heap.items = [(1, 3), (1, 4), (2, 0), (2, 2)] ∧
      (∃ item earlier later, waiting = earlier ++ item :: later ∧
        (∀ other ∈ earlier, order item other = .lt) ∧
        (∀ other ∈ later, (order item other).isLE = true) ∧
        heap.peek? = some item ∧ heap.dequeue.1 = .ok item ∧
        heap.dequeue.2.items.Perm (earlier ++ later) ∧
        Queue.waitingAfter order (requests ++ [.dequeue]) = earlier ++ later) ∧
      heap.peek? = some (1, 3) ∧
      Queue.answers serve heap (List.replicate 5 .dequeue) =
        [.ok (some (1, 3)), .ok (some (1, 4)), .ok (some (2, 0)), .ok (some (2, 2)),
          .error .emptyQueue] := by
  intro order requests heap waiting
  have preorder : Std.TransCmp order := inferInstanceAs (Std.TransCmp (compareOn Prod.fst))
  obtain ⟨-, -, -, leaves, -⟩ := @requests_take_least_first _ order preorder requests
  exact ⟨preorder, by decide, by decide +kernel,
    leaves (by decide), by decide +kernel, by decide +kernel⟩

end RealMode.Heap
