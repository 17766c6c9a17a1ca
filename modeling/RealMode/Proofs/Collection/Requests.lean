import RealMode.Proofs.Collection.Queue
import RealMode.Proofs.Collection.Stable

/-! Requests to a queue, against a plain list of what waits.

The list is in the order of arrival, and whoever leaves it is looked for among all items. The queue
gives the same answers, since it holds the same items stably sorted. -/

set_option autoImplicit false

namespace RealMode

/-- What can be asked of a queue. -/
inductive Queue.Request (α : Type) where
  | enqueue (item : α)
  | dequeue
  | peek
  deriving Repr

namespace Queue

section Serving

variable {α σ τ : Type}

/-- What a server is behind a row of requests. To each of them it gives an answer, in which an item may
be shown. -/
def serveAll (serve : σ → Request α → Except Fault (Option α) × σ) (server : σ)
    (requests : List (Request α)) : σ :=
  requests.foldl (fun server request => (serve server request).2) server

def answers (serve : σ → Request α → Except Fault (Option α) × σ) (server : σ) :
    List (Request α) → List (Except Fault (Option α))
  | [] => []
  | request :: rest => (serve server request).1 :: answers serve (serve server request).2 rest

theorem serveAll_concat (serve : σ → Request α → Except Fault (Option α) × σ) (server : σ)
    (requests : List (Request α)) (request : Request α) :
    serveAll serve server (requests ++ [request]) = (serve (serveAll serve server requests) request).2 := by
  simp [serveAll]

/-- Servers that answer every request alike, and stay related with it, answer all requests alike. -/
theorem answers_of_related {left : σ → Request α → Except Fault (Option α) × σ}
    {right : τ → Request α → Except Fault (Option α) × τ} {Related : σ → τ → Prop}
    (step : ∀ server other, Related server other → ∀ request,
      (left server request).1 = (right other request).1 ∧
        Related (left server request).2 (right other request).2)
    {server : σ} {other : τ} (related : Related server other) (requests : List (Request α)) :
    answers left server requests = answers right other requests := by
  induction requests generalizing server other with
  | nil => rfl
  | cons request rest ih =>
      obtain ⟨alike, next⟩ := step server other related request
      rw [answers, answers, alike, ih next]

end Serving

variable {α : Type} {order : α → α → Ordering}

def serve (queue : Queue α order) : Request α → Except Fault (Option α) × Queue α order
  | .enqueue item => (.ok none, queue.enqueue item)
  | .dequeue => (queue.dequeue.1.map some, queue.dequeue.2)
  | .peek => (.ok queue.peek?, queue)

/-- The earliest of the least items of a list, and the others. -/
def takeLeast? (order : α → α → Ordering) : List α → Option (α × List α)
  | [] => none
  | item :: rest =>
      match takeLeast? order rest with
      | none => some (item, rest)
      | some (least, others) =>
          if order item least = .gt then some (least, item :: others) else some (item, rest)

/-- What waits behind a request, in the order of arrival. -/
def Request.leave (order : α → α → Ordering) (waiting : List α) : Request α → List α
  | .enqueue item => waiting ++ [item]
  | .dequeue => ((takeLeast? order waiting).map Prod.snd).getD []
  | .peek => waiting

def waitingAfter (order : α → α → Ordering) (requests : List (Request α)) : List α :=
  requests.foldl (Request.leave order) []

theorem waitingAfter_concat (order : α → α → Ordering) (requests : List (Request α))
    (request : Request α) :
    waitingAfter order (requests ++ [request]) = request.leave order (waitingAfter order requests) := by
  simp [waitingAfter]

theorem dequeue_of_next? {queue rest : Queue α order} {item : α} (next : queue.next? = some (item, rest)) :
    queue.dequeue = (.ok item, rest) := by
  rw [dequeue, next]

theorem dequeue_of_nothing {queue : Queue α order} (nothing : queue.toList = []) :
    queue.dequeue = (.error .emptyQueue, queue) := by
  rw [dequeue, next?_eq_none_iff.mpr nothing]

theorem arrivals_of_next? {queue rest : Queue α order} {item : α}
    (next : queue.next? = some (item, rest)) : rest.arrivals = queue.arrivals := by
  unfold next? at next
  cases found : queue.lines with
  | nil => simp [found] at next
  | cons line others =>
      simp only [found, Option.some.injEq, Prod.mk.injEq] at next
      exact next.2 ▸ rfl

/-- What is shown is what leaves next. -/
theorem peek?_eq (queue : Queue α order) : queue.peek? = queue.next?.map Prod.fst := by
  unfold peek? next?
  cases queue.lines <;> rfl

/-- Whoever asks for the next item again and again is given all items, and then none. -/
theorem answers_dequeue (queue : Queue α order) {count : Nat} (all : queue.toList.length = count) :
    answers serve queue (List.replicate (count + 1) .dequeue) =
      queue.toList.map (fun item => .ok (some item)) ++ [.error .emptyQueue] := by
  induction count generalizing queue with
  | zero =>
      have nothing := List.eq_nil_of_length_eq_zero all
      simp [answers, serve, dequeue_of_nothing nothing, nothing, Except.map]
  | succ count ih =>
      cases found : queue.next? with
      | none => simp [next?_eq_none_iff.mp found] at all
      | some next =>
          obtain ⟨item, rest⟩ := next
          have items := toList_of_next? found
          have served : queue.serve .dequeue = (.ok (some item), rest) := by
            rw [serve, dequeue_of_next? found]
            rfl
          rw [items, List.length_cons, Nat.add_right_cancel_iff] at all
          rw [List.replicate_succ, answers, served, ih rest all, items, List.map_cons, List.cons_append]

theorem takeLeast?_eq_none_iff {waiting : List α} : takeLeast? order waiting = none ↔ waiting = [] := by
  cases waiting with
  | nil => simp [takeLeast?]
  | cons item rest =>
      rw [takeLeast?]
      cases takeLeast? order rest with
      | none => simp
      | some found =>
          dsimp only
          split <;> simp

variable [Std.TransCmp order]

/-- What is taken from a list comes before everything that stands before it, and after nothing. -/
theorem exists_of_takeLeast? {waiting others : List α} {item : α}
    (taken : takeLeast? order waiting = some (item, others)) :
    ∃ earlier later, waiting = earlier ++ item :: later ∧ others = earlier ++ later ∧
      (∀ other ∈ earlier, order item other = .lt) ∧
      ∀ other ∈ later, (order item other).isLE = true := by
  induction waiting generalizing item others with
  | nil => simp [takeLeast?] at taken
  | cons head rest ih =>
      rw [takeLeast?] at taken
      cases found : takeLeast? order rest with
      | none =>
          simp only [found, Option.some.injEq, Prod.mk.injEq] at taken
          obtain ⟨rfl, rfl⟩ := taken
          exact ⟨[], rest, rfl, rfl, by simp, by simp [takeLeast?_eq_none_iff.mp found]⟩
      | some next =>
          obtain ⟨least, remaining⟩ := next
          obtain ⟨earlier, later, rfl, rfl, above, notBelow⟩ := ih found
          simp only [found] at taken
          split at taken
          · rename_i greater
            simp only [Option.some.injEq, Prod.mk.injEq] at taken
            obtain ⟨rfl, rfl⟩ := taken
            refine ⟨head :: earlier, later, rfl, rfl, fun other member => ?_, notBelow⟩
            rcases List.mem_cons.mp member with rfl | member
            · exact Std.OrientedCmp.gt_iff_lt.mp greater
            · exact above other member
          · rename_i notGreater
            simp only [Option.some.injEq, Prod.mk.injEq] at taken
            obtain ⟨rfl, rfl⟩ := taken
            -- The first item is not after the least of the others, so it is after none of them.
            have below : (order head least).isLE = true := by
              simpa [Ordering.isLE_iff_ne_gt] using notGreater
            refine ⟨[], earlier ++ least :: later, rfl, rfl, by simp, fun other member => ?_⟩
            rcases List.mem_append.mp member with member | member
            · exact Std.TransCmp.isLE_trans below (by simp [above other member])
            · rcases List.mem_cons.mp member with rfl | member
              · exact below
              · exact Std.TransCmp.isLE_trans below (notBelow other member)

/-- An item before everything that stands before it, and after nothing, is what is taken. -/
theorem takeLeast?_of_least {earlier later : List α} {item : α}
    (above : ∀ other ∈ earlier, order item other = .lt)
    (notBelow : ∀ other ∈ later, (order item other).isLE = true) :
    takeLeast? order (earlier ++ item :: later) = some (item, earlier ++ later) := by
  induction earlier with
  | nil =>
      rw [List.nil_append, takeLeast?]
      cases found : takeLeast? order later with
      | none => rfl
      | some next =>
          obtain ⟨least, others⟩ := next
          obtain ⟨front, back, rfl, -, -, -⟩ := exists_of_takeLeast? found
          have below := notBelow least (by simp)
          rw [Ordering.isLE_iff_ne_gt] at below
          exact if_neg below
  | cons head rest ih =>
      have greater : order head item = .gt := Std.OrientedCmp.gt_iff_lt.mpr (above head List.mem_cons_self)
      rw [List.cons_append, takeLeast?, ih fun other member => above other (List.mem_cons_of_mem head member)]
      exact if_pos greater

/-- The queue holds what waits, stably sorted. -/
structure Holds (queue : Queue α order) (waiting : List α) : Prop where
  ranked : Ranked order queue.lines
  sorted : queue.toList = Stable.sort order waiting

namespace Holds

variable {queue : Queue α order} {waiting : List α} (holds : queue.Holds waiting)

include holds

omit [Std.TransCmp order] in
theorem nothing_iff : queue.toList = [] ↔ waiting = [] := by
  rw [holds.sorted, ← List.length_eq_zero_iff, (Stable.sort_perm order waiting).length_eq,
    List.length_eq_zero_iff]

/-- The next item of the queue is the one that would be taken from the list. -/
theorem next?_eq {item : α} {rest : Queue α order} (next : queue.next? = some (item, rest)) :
    ∃ others, takeLeast? order waiting = some (item, others) ∧ rest.Holds others := by
  have items := toList_of_next? next
  cases taken : takeLeast? order waiting with
  | none => simp [holds.nothing_iff.mpr (takeLeast?_eq_none_iff.mp taken)] at items
  | some found =>
      obtain ⟨least, others⟩ := found
      obtain ⟨earlier, later, rfl, rfl, above, notBelow⟩ := exists_of_takeLeast? taken
      rw [holds.sorted, Stable.sort_of_least above notBelow, List.cons.injEq] at items
      obtain ⟨rfl, stays⟩ := items
      exact ⟨_, rfl, holds.ranked.next? next, stays.symm⟩

/-- The earliest of the least items leaves, and the others stay. -/
theorem exists_next? {earlier later : List α} {item : α} (split : waiting = earlier ++ item :: later)
    (above : ∀ other ∈ earlier, order item other = .lt)
    (notBelow : ∀ other ∈ later, (order item other).isLE = true) :
    ∃ rest : Queue α order, queue.next? = some (item, rest) ∧ rest.Holds (earlier ++ later) := by
  subst split
  cases next : queue.next? with
  | none => simpa using holds.nothing_iff.mp (next?_eq_none_iff.mp next)
  | some found =>
      obtain ⟨others, taken, stays⟩ := holds.next?_eq next
      rw [takeLeast?_of_least above notBelow, Option.some.injEq, Prod.mk.injEq] at taken
      obtain ⟨rfl, rfl⟩ := taken
      exact ⟨found.2, rfl, stays⟩

theorem serve (request : Request α) :
    (queue.serve request).2.Holds (request.leave order waiting) := by
  cases request with
  | enqueue item =>
      refine ⟨holds.ranked.enter item, ?_⟩
      rw [Queue.serve, toList_enqueue item holds.ranked, holds.sorted, Request.leave, Stable.sort_concat]
  | dequeue =>
      rw [Queue.serve, Request.leave, dequeue]
      cases next : queue.next? with
      | none =>
          have nothing := holds.nothing_iff.mp (next?_eq_none_iff.mp next)
          simpa [nothing, takeLeast?] using holds
      | some found =>
          obtain ⟨others, taken, stays⟩ := holds.next?_eq next
          rw [taken]
          exact stays
  | peek => exact holds

end Holds

end Queue

end RealMode
