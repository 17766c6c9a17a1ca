import Mathlib.Data.List.TakeWhile

/-! Lists that a test cuts in two.

If whatever stands before an element that passes the test passes it, too, those that pass are the front of
the list. A search may look for the end of that front in any way: there is only one. -/

set_option autoImplicit false

namespace RealMode.Cut

variable {α : Type} {test : α → Bool} {list : List α}

/-- Whatever stands before an element that passes a test passes it, too. -/
def Parts (test : α → Bool) (list : List α) : Prop :=
  list.Pairwise fun left right => test right = true → test left = true

namespace Parts

variable (parts : Parts test list)

include parts

/-- An element at or before the place of one that passes a test passes it. -/
theorem of_le {low high : Nat} {left right : α} (order : low ≤ high) (atLow : list[low]? = some left)
    (atHigh : list[high]? = some right) (passed : test right = true) : test left = true := by
  obtain ⟨lowInside, rfl⟩ := List.getElem?_eq_some_iff.mp atLow
  obtain ⟨highInside, rfl⟩ := List.getElem?_eq_some_iff.mp atHigh
  rcases Nat.eq_or_lt_of_le order with rfl | below
  · exact passed
  · exact List.pairwise_iff_getElem.mp parts low high lowInside highInside below passed

/-- Behind the first element that fails a test, all elements fail it. -/
theorem not_of_mem_dropWhile {item : α} (member : item ∈ list.dropWhile test) : test item = false := by
  induction list with
  | nil => simp at member
  | cons head rest ih =>
      obtain ⟨front, parts⟩ := List.pairwise_cons.mp parts
      cases tested : test head with
      | true =>
          rw [List.dropWhile_cons_of_pos tested] at member
          exact ih parts member
      | false =>
          rw [List.dropWhile_cons_of_neg (by simp [tested])] at member
          rcases List.mem_cons.mp member with rfl | member
          · exact tested
          · rw [Bool.eq_false_iff]
            intro passed
            simp [front item member passed] at tested

end Parts

/-- The elements in front of `index` pass a test, and the others fail it. -/
structure At (test : α → Bool) (list : List α) (index : Nat) : Prop where
  le_length : index ≤ list.length
  passed : ∀ item ∈ list.take index, test item = true
  failed : ∀ item ∈ list.drop index, test item = false

namespace At

variable {index : Nat} (cut : At test list index)

include cut

theorem take_eq_filter : list.take index = list.filter test := by
  have front : (list.take index).filter test = list.take index := List.filter_eq_self.mpr cut.passed
  have back : (list.drop index).filter test = [] :=
    List.filter_eq_nil_iff.mpr fun item member => by simp [cut.failed item member]
  calc list.take index
      = (list.take index).filter test ++ (list.drop index).filter test := by
        rw [front, back, List.append_nil]
    _ = list.filter test := by rw [← List.filter_append, List.take_append_drop]

theorem drop_eq_filter : list.drop index = list.filter fun item => !test item := by
  have front : (list.take index).filter (fun item => !test item) = [] :=
    List.filter_eq_nil_iff.mpr fun item member => by simp [cut.passed item member]
  have back : (list.drop index).filter (fun item => !test item) = list.drop index :=
    List.filter_eq_self.mpr fun item member => by simp [cut.failed item member]
  calc list.drop index
      = (list.take index).filter (fun item => !test item) ++
          (list.drop index).filter fun item => !test item := by
        rw [front, back, List.nil_append]
    _ = list.filter fun item => !test item := by rw [← List.filter_append, List.take_append_drop]

/-- Behind a part of the list that is left out, the cut stands as far to the front. -/
theorem drop (count : Nat) : At test (list.drop count) (index - count) where
  le_length := by
    rw [List.length_drop]
    exact Nat.sub_le_sub_right cut.le_length count
  passed item member := by
    rw [← List.drop_take] at member
    exact cut.passed item (List.mem_of_mem_drop member)
  failed item member := by
    rw [List.drop_drop] at member
    refine cut.failed item (List.drop_subset_drop_left list ?_ member)
    omega

end At

section Sorted

variable {before : α → α → Prop} {item : α} (sorted : list.Pairwise before)

include sorted

/-- A new element keeps the order if it fits between two parts of the list. -/
theorem pairwise_insert {front back : List α} (split : front ++ back = list)
    (earlier : ∀ left ∈ front, before left item) (later : ∀ right ∈ back, before item right) :
    (front ++ item :: back).Pairwise before := by
  rw [← split] at sorted
  obtain ⟨low, high, across⟩ := List.pairwise_append.mp sorted
  refine List.pairwise_append.mpr ⟨low, List.pairwise_cons.mpr ⟨later, high⟩, ?_⟩
  intro left member right found
  rcases List.mem_cons.mp found with rfl | found
  · exact earlier left member
  · exact across left member right found

/-- What is in a list in order comes before the last element, unless it is that. -/
theorem eq_or_before_last {last : α} (found : list.getLast? = some last) (member : item ∈ list) :
    item = last ∨ before item last := by
  obtain ⟨init, rfl⟩ := List.getLast?_eq_some_iff.mp found
  rcases List.mem_append.mp member with earlier | same
  · exact .inr ((List.pairwise_append.mp sorted).2.2 item earlier last (List.mem_singleton_self last))
  · exact .inl (List.mem_singleton.mp same)

/-- What is in a list in order comes behind the first element, unless it is that. -/
theorem eq_or_behind_first {first : α} (found : list.head? = some first) (member : item ∈ list) :
    item = first ∨ before first item := by
  obtain ⟨rest, rfl⟩ := List.head?_eq_some_iff.mp found
  rcases List.mem_cons.mp member with same | later
  · exact .inl same
  · exact .inr (List.rel_of_pairwise_cons sorted later)

end Sorted

/-- The element in front of `index` passes a test and the one there fails it, if there are such elements. -/
structure Turns (test : α → Bool) (list : List α) (index : Nat) : Prop where
  le_length : index ≤ list.length
  passed : ∀ item, (list.take index).getLast? = some item → test item = true
  failed : ∀ item, (list.drop index).head? = some item → test item = false

/-- Where a test turns, it cuts a list that it parts. -/
theorem Turns.at {index : Nat} (turns : Turns test list index) (parts : Parts test list) :
    At test list index where
  le_length := turns.le_length
  passed item member := by
    obtain ⟨last, found⟩ := Option.isSome_iff_exists.mp
      (List.getLast?_isSome.mpr (List.ne_nil_of_mem member))
    rcases eq_or_before_last (parts.sublist (List.take_sublist ..)) found member with rfl | passes
    · exact turns.passed item found
    · exact passes (turns.passed last found)
  failed item member := by
    obtain ⟨next, found⟩ := Option.isSome_iff_exists.mp
      (List.isSome_head?.mpr (List.ne_nil_of_mem member))
    have fails := turns.failed next found
    rcases eq_or_behind_first (parts.sublist (List.drop_sublist ..)) found member with rfl | passes
    · exact fails
    · rw [Bool.eq_false_iff] at fails ⊢
      exact fun passed => fails (passes passed)

end RealMode.Cut
