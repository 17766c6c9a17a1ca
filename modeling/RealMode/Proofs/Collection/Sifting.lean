import RealMode.Collection.Heap

/-! Rising and sinking restore the order of a heap.

While an entry is on its way, the order may fail between its place and the places next to it only. Both
directions keep this, and in addition the half that they do not touch: a rising entry does not come after
its children, a sinking one not before its parent. -/

set_option autoImplicit false

namespace RealMode.Heap

variable {β : Type} {size : Nat} {compare : β → β → Ordering}

/-- One place is above another one, directly. -/
def Above (upper lower : Fin size) : Prop := 0 < lower.val ∧ parent lower = upper

theorem Above.lt {upper lower : Fin size} (above : Above upper lower) : upper.val < lower.val :=
  above.2 ▸ parent_lt above.1

theorem above_iff {upper lower : Fin size} :
    Above upper lower ↔ lower.val = 2 * upper.val + 1 ∨ lower.val = 2 * upper.val + 2 := by
  simp only [Above, parent, Fin.ext_iff]
  omega

variable (compare) in
/-- What stands at one place does not come after what stands at another one. -/
def Leads (entries : Vector β size) (left right : Fin size) : Prop :=
  (compare (entries.get left) (entries.get right)).isLE = true

variable (compare) in
/-- No entry comes before the one above it. -/
def Heaped (entries : Vector β size) : Prop :=
  ∀ upper lower : Fin size, Above upper lower → Leads compare entries upper lower

variable (compare) in
/-- The entries are in order but for one of them, and those below it do not come before the one above it. -/
structure HeapedBut (entries : Vector β size) (gap : Fin size) : Prop where
  others : ∀ upper lower, Above upper lower → upper ≠ gap → lower ≠ gap →
    Leads compare entries upper lower
  across : ∀ upper lower, Above upper gap → Above gap lower → Leads compare entries upper lower

section Steps

variable {entries : Vector β size} {gap : Fin size}

/-- An entry in order with all that are next to it closes the gap. -/
theorem HeapedBut.heaped (but : HeapedBut compare entries gap)
    (upward : ∀ upper, Above upper gap → Leads compare entries upper gap)
    (downward : ∀ lower, Above gap lower → Leads compare entries gap lower) :
    Heaped compare entries := by
  intro upper lower above
  by_cases top : upper = gap
  · exact top ▸ downward lower (top ▸ above)
  · by_cases bottom : lower = gap
    · exact bottom ▸ upward upper (bottom ▸ above)
    · exact but.others upper lower above top bottom

theorem get_exchange_of_ne {left right place : Fin size} (apart : place ≠ left) (also : place ≠ right) :
    (exchange entries left right).get place = entries.get place := by
  refine Vector.getElem_swap_of_ne (fun same => ?_) fun same => ?_
  · exact apart (Fin.ext same)
  · exact also (Fin.ext same)

theorem get_exchange_left (left right : Fin size) :
    (exchange entries left right).get left = entries.get right := Vector.getElem_swap_left ..

theorem get_exchange_right (left right : Fin size) :
    (exchange entries left right).get right = entries.get left := Vector.getElem_swap_right ..

theorem leads_of_less {left right : Fin size} (comes : less compare entries left right = true) :
    Leads compare entries left right := by
  simp_all [less, Leads]

/-- An entry after the first of those below it changes places with it, and is in order with what is then
above it. -/
theorem HeapedBut.sink {lower : Fin size} (but : HeapedBut compare entries gap) (above : Above gap lower)
    (first : ∀ other, Above gap other → Leads compare entries lower other)
    (comes : Leads compare entries lower gap) :
    HeapedBut compare (exchange entries gap lower) lower ∧
      ∀ upper, Above upper lower →
        Leads compare (exchange entries gap lower) upper lower := by
  have apart : gap ≠ lower := fun same => absurd (same ▸ above.lt) (Nat.lt_irrefl _)
  refine ⟨⟨fun upper other below notUpper notOther => ?_, fun upper other near below => ?_⟩,
    fun upper near => ?_⟩
  · -- Neither place is the one that the entry sank to, but one of them may be the one that it left.
    by_cases middle : other = gap
    · subst middle
      have notGap : upper ≠ other := fun same => by have := below.lt; omega
      rw [Leads, get_exchange_left, get_exchange_of_ne notGap notUpper]
      exact but.across upper lower below above
    · rw [Leads, get_exchange_of_ne middle notOther]
      by_cases top : upper = gap
      · subst top
        rw [get_exchange_left]
        exact first other below
      · rw [get_exchange_of_ne top notUpper]
        exact but.others upper other below top middle
  · obtain rfl : gap = upper := above.2.symm.trans near.2
    have notGap : other ≠ gap := fun same => by have := near.lt; have := below.lt; omega
    have notLower : other ≠ lower := fun same => by have := below.lt; omega
    rw [Leads, get_exchange_left, get_exchange_of_ne notGap notLower]
    exact but.others lower other below apart.symm notGap
  · obtain rfl : gap = upper := above.2.symm.trans near.2
    rw [Leads, get_exchange_left, get_exchange_right]
    exact comes

variable [Std.TransCmp compare]

theorem leads_of_not_less {left right : Fin size} (stays : ¬less compare entries left right = true) :
    Leads compare entries right left := by
  have swapped : compare (entries.get right) (entries.get left) =
      (compare (entries.get left) (entries.get right)).swap := Std.OrientedCmp.eq_swap
  rw [Leads, swapped]
  cases compared : compare (entries.get left) (entries.get right) with
  | lt => exact absurd (by rw [less, compared]; rfl) stays
  | eq | gt => rfl

/-- An entry that comes before the one above it changes places with it, and is in order with what is then
below it. -/
theorem HeapedBut.rise {upper : Fin size} (but : HeapedBut compare entries gap) (above : Above upper gap)
    (downward : ∀ lower, Above gap lower → Leads compare entries gap lower)
    (comes : Leads compare entries gap upper) :
    HeapedBut compare (exchange entries gap upper) upper ∧
      ∀ lower, Above upper lower →
        Leads compare (exchange entries gap upper) upper lower := by
  have apart : upper ≠ gap := fun same => absurd (same ▸ above.lt) (Nat.lt_irrefl _)
  -- Whatever else is below the upper place comes after the entry that stood there.
  have sibling : ∀ lower, Above upper lower → lower ≠ gap → Leads compare entries upper lower :=
    fun lower below other => but.others upper lower below apart other
  refine ⟨⟨fun top lower below notUpper notLower => ?_, fun top lower far below => ?_⟩,
    fun lower below => ?_⟩
  · -- What was below the entry that rises stays there, below the one that comes down.
    have notGap : lower ≠ gap := fun same => notUpper (below.2.symm.trans (same ▸ above.2))
    rw [Leads, get_exchange_of_ne notGap notLower]
    by_cases middle : top = gap
    · subst middle
      rw [get_exchange_left]
      exact but.across upper lower above below
    · rw [get_exchange_of_ne middle notUpper]
      exact but.others top lower below middle notGap
  · have topGap : top ≠ gap := fun same => by have := far.lt; have := above.lt; omega
    have topUpper : top ≠ upper := fun same => by have := far.lt; omega
    have chain := but.others top upper far topGap apart
    rw [Leads, get_exchange_of_ne topGap topUpper]
    by_cases middle : lower = gap
    · subst middle
      rwa [get_exchange_left]
    · have notUpper : lower ≠ upper := fun same => by have := below.lt; omega
      rw [get_exchange_of_ne middle notUpper]
      exact Std.TransCmp.isLE_trans chain (sibling lower below middle)
  · rw [Leads, get_exchange_right]
    by_cases middle : lower = gap
    · subst middle
      rw [get_exchange_left]
      exact comes
    · have notUpper : lower ≠ upper := fun same => by have := below.lt; omega
      rw [get_exchange_of_ne middle notUpper]
      exact Std.TransCmp.isLE_trans comes (sibling lower below middle)

variable (compare) in
/-- Neither what was best so far nor the candidate comes before the better of them. -/
theorem leads_earlier (entries : Vector β size) (best : Fin size) (candidate : Nat) :
    Leads compare entries (earlier compare entries best candidate) best ∧
      ∀ inside : candidate < size,
        Leads compare entries (earlier compare entries best candidate) ⟨candidate, inside⟩ := by
  have itself (place : Fin size) : Leads compare entries place place := by
    have equal : compare (entries.get place) (entries.get place) = .eq := Std.ReflCmp.compare_self
    exact congrArg Ordering.isLE equal
  unfold earlier
  split
  · rename_i inside
    split
    · rename_i comes
      exact ⟨leads_of_less comes, fun _ => itself ⟨candidate, inside⟩⟩
    · rename_i stays
      exact ⟨itself best, fun _ => leads_of_not_less stays⟩
  · rename_i outside
    exact ⟨itself best, fun inside => absurd inside outside⟩

variable (compare) in
/-- Nothing below a place comes before the first of what stands there and below. -/
theorem leads_smallest (entries : Vector β size) (place : Fin size) :
    Leads compare entries (smallest compare entries place) place ∧
      ∀ lower, Above place lower →
        Leads compare entries (smallest compare entries place) lower := by
  obtain ⟨firstBest, left⟩ := leads_earlier compare entries place (2 * place.val + 1)
  obtain ⟨secondBest, right⟩ := leads_earlier compare entries
    (earlier compare entries place (2 * place.val + 1)) (2 * place.val + 2)
  simp only [smallest]
  refine ⟨Std.TransCmp.isLE_trans secondBest firstBest, fun lower above => ?_⟩
  obtain ⟨lower, inside⟩ := lower
  rcases above_iff.mp above with rfl | rfl
  · exact Std.TransCmp.isLE_trans secondBest (left inside)
  · exact right inside

end Steps

/-- An entry that is in order with those below it rises to where the heap is in order. -/
theorem heaped_siftUp [Std.TransCmp compare] (entries : Vector β size) (child : Fin size)
    (but : HeapedBut compare entries child)
    (downward : ∀ lower, Above child lower → Leads compare entries child lower) :
    Heaped compare (siftUp compare entries child) := by
  fun_induction siftUp compare entries child with
  | case1 entries child inner comes _ ih =>
      obtain ⟨raised, below⟩ := but.rise ⟨inner, rfl⟩ downward (leads_of_less comes)
      exact ih raised below
  | case2 entries child inner stays =>
      refine but.heaped (fun upper above => ?_) downward
      exact above.2 ▸ leads_of_not_less stays
  | case3 entries child root =>
      exact but.heaped (fun upper above => absurd above.1 root) downward

/-- An entry that is in order with the one above it sinks to where the heap is in order. -/
theorem heaped_siftDown [Std.TransCmp compare] (entries : Vector β size) (place : Fin size)
    (but : HeapedBut compare entries place)
    (upward : ∀ upper, Above upper place → Leads compare entries upper place) :
    Heaped compare (siftDown compare entries place) := by
  fun_induction siftDown compare entries place with
  | case1 entries place least same =>
      have first := (leads_smallest compare entries place).2
      exact but.heaped upward fun lower above => same ▸ first lower above
  | case2 entries place least moves _ ih =>
      obtain ⟨comes, first⟩ := leads_smallest compare entries place
      have above := above_iff.mpr ((smallest_eq_or compare entries place).resolve_left moves)
      obtain ⟨lowered, upward⟩ := but.sink above first comes
      exact ih lowered upward

theorem siftUp_perm (entries : Vector β size) (child : Fin size) :
    (siftUp compare entries child).toList.Perm entries.toList := by
  fun_induction siftUp compare entries child with
  | case1 entries child inner comes _ ih => exact ih.trans (Vector.swap_perm ..).toList
  | case2 | case3 => exact .refl _

theorem siftDown_perm (entries : Vector β size) (place : Fin size) :
    (siftDown compare entries place).toList.Perm entries.toList := by
  fun_induction siftDown compare entries place with
  | case1 => exact .refl _
  | case2 entries place least moves _ ih => exact ih.trans (Vector.swap_perm ..).toList

section Ends

/-- A new last entry has nothing below it, and the others are in order. -/
theorem Heaped.push {entries : Vector β size} (heaped : Heaped compare entries) (entry : β) :
    HeapedBut compare (entries.push entry) (Fin.last size) := by
  refine ⟨fun upper lower above notUpper notLower => ?_, fun upper lower _ below => ?_⟩
  · have inside : lower.val < size := Fin.val_lt_last notLower
    have upperInside : upper.val < size := Nat.lt_trans above.lt inside
    have places := above_iff.mp above
    have known := heaped ⟨upper, upperInside⟩ ⟨lower, inside⟩ (above_iff.mpr places)
    have kept (place : Fin (size + 1)) (there : place.val < size) :
        (entries.push entry).get place = entries.get ⟨place, there⟩ := Vector.getElem_push_lt there
    rwa [Leads, kept upper upperInside, kept lower inside]
  · exact absurd below.lt (Nat.not_lt.mpr (Nat.lt_succ_iff.mp lower.isLt))

/-- Without the root the others are in order, whatever stands in its place. -/
theorem Heaped.pop {last : Nat} {entries : Vector β (last + 1)} (heaped : Heaped compare entries)
    (filled : 0 < last) : HeapedBut compare (exchange entries 0 (Fin.last last)).pop ⟨0, filled⟩ := by
  have kept (place : Fin last) (inner : place ≠ ⟨0, filled⟩) :
      (exchange entries 0 (Fin.last last)).pop.get place = entries.get place.castSucc := by
    have popped : (exchange entries 0 (Fin.last last)).pop.get place =
        (exchange entries 0 (Fin.last last)).get place.castSucc := Vector.getElem_pop ..
    rw [popped, get_exchange_of_ne]
    · intro same
      have root : place.val = 0 := congrArg Fin.val same
      exact inner (Fin.ext root)
    · exact Fin.ne_of_lt (Fin.castSucc_lt_last place)
  refine ⟨fun upper lower above notUpper notLower => ?_, fun upper lower above _ => ?_⟩
  · rw [Leads, kept upper notUpper, kept lower notLower]
    have places := above_iff.mp above
    exact heaped upper.castSucc lower.castSucc (above_iff.mpr places)
  · exact absurd above.lt (Nat.not_lt_zero _)

/-- Nothing comes before the root. -/
theorem Heaped.leads_root [Std.TransCmp compare] {last : Nat} {entries : Vector β (last + 1)}
    (heaped : Heaped compare entries) (place : Fin (last + 1)) :
    Leads compare entries 0 place := by
  obtain ⟨index, inside⟩ := place
  induction index using Nat.strongRecOn with
  | ind index ih =>
      by_cases root : index = 0
      · subst root
        have equal : compare (entries.get 0) (entries.get 0) = .eq := Std.ReflCmp.compare_self
        exact congrArg Ordering.isLE equal
      · have inner : 0 < index := Nat.pos_of_ne_zero root
        have shorter : (parent ⟨index, inside⟩).val < index := parent_lt inner
        have upper := ih _ shorter (parent ⟨index, inside⟩).isLt
        exact Std.TransCmp.isLE_trans upper (heaped _ _ ⟨inner, rfl⟩)

theorem Heaped.isLE_of_mem [Std.TransCmp compare] {last : Nat} {entries : Vector β (last + 1)}
    (heaped : Heaped compare entries) {entry : β} (member : entry ∈ entries.toList) :
    (compare (entries.get 0) entry).isLE = true := by
  obtain ⟨index, inside, rfl⟩ := Vector.getElem_of_mem (Vector.mem_toList_iff.mp member)
  exact heaped.leads_root ⟨index, inside⟩

theorem Heaped.takeRoot [Std.TransCmp compare] {last : Nat} {entries : Vector β (last + 1)}
    (heaped : Heaped compare entries) : Heaped compare (takeRoot compare entries).2 := by
  unfold Heap.takeRoot
  by_cases filled : 0 < last
  · simp only [filled, dite_true]
    exact heaped_siftDown _ _ (heaped.pop filled) fun upper above => absurd above.lt (Nat.not_lt_zero _)
  · intro upper
    exact absurd (Nat.lt_of_le_of_lt (Nat.zero_le _) upper.isLt) filled

variable (compare) in
theorem takeRoot_fst {last : Nat} (entries : Vector β (last + 1)) :
    (takeRoot compare entries).1 = entries.get 0 := by
  rw [takeRoot, Vector.back_eq_getElem]
  exact Vector.getElem_swap_right ..

variable (compare) in
/-- What stays are all entries but the root. -/
theorem takeRoot_perm {last : Nat} (entries : Vector β (last + 1)) :
    entries.toList.Perm (entries.get 0 :: (takeRoot compare entries).2.toList) := by
  let swapped := entries.swap 0 last
  have back : swapped.back = entries.get 0 := takeRoot_fst compare entries
  have split : swapped.toList = swapped.pop.toList ++ [entries.get 0] := by
    rw [← back, ← Vector.toList_push, Vector.push_pop_back]
  have sunk : (takeRoot compare entries).2.toList.Perm swapped.pop.toList := by
    unfold takeRoot
    split
    · exact siftDown_perm _ _
    · exact .refl _
  have same : swapped.toList.Perm entries.toList := (Vector.swap_perm _ _).toList
  rw [split] at same
  exact same.symm.trans ((List.perm_append_singleton ..).trans (sunk.symm.cons _))

end Ends

end RealMode.Heap
