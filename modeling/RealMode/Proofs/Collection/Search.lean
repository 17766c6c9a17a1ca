import RealMode.Collection.Search
import RealMode.Proofs.Collection.Cut

/-! What a binary search finds.

The range of the search begins with an item that does not come after the key. It ends before one that does, or
behind one where a half was not even. On a list in order this leaves one place only. -/

set_option autoImplicit false

namespace RealMode.Search

variable {α : Type} {compare : α → Ordering} {test : α → Bool} {items : List α}

/-- The item at a place is related to the key as given. -/
def Found (items : List α) (place : Nat) (related : α → Prop) : Prop :=
  ∃ item, items[place]? = some item ∧ related item

/-- The item at a place does not come after the key, unless the place is the first. -/
def Starts (compare : α → Ordering) (items : List α) (place : Nat) : Prop :=
  place = 0 ∨ Found items place (compare · ≠ .gt)

/-- The item at a place comes after the key, or the one before it does, unless the place is the end. -/
def Stops (compare : α → Ordering) (items : List α) (place : Nat) : Prop :=
  place = items.length ∨ Found items place (compare · = .gt) ∨ Found items (place - 1) (compare · = .gt)

theorem narrow_spec {base size : Nat} (filled : 0 < size) (inside : base + size ≤ items.length)
    (starts : Starts compare items base) (stops : Stops compare items (base + size)) :
    narrow compare items base size < items.length ∧ Starts compare items (narrow compare items base size) ∧
      Stops compare items (narrow compare items base size + 1) := by
  fun_induction narrow compare items base size with
  | case1 base size several half middle above ih =>
      have within : middle < items.length := by omega
      have found : items[middle]? = some items[middle] := List.getElem?_eq_getElem within
      by_cases high : compare items[middle] = .gt
      · have chosen : above = true := by simp [above, found, high]
        simp only [chosen, dite_true, if_true] at ih ⊢
        refine ih (by omega) (by omega) starts (.inr ?_)
        -- A range of odd size keeps its middle although that comes after the key.
        rcases Nat.mod_two_eq_zero_or_one size with even | odd
        · have ends : base + (size - half) = middle := by omega
          exact .inl (ends ▸ ⟨_, found, high⟩)
        · have ends : base + (size - half) - 1 = middle := by omega
          exact .inr (ends ▸ ⟨_, found, high⟩)
      · have chosen : above = false := by simp [above, found, high]
        simp only [chosen, Bool.false_eq_true, dite_false, if_false] at ih ⊢
        have ends : middle + (size - half) = base + size := by omega
        exact ih (by omega) (by omega) (.inr ⟨_, found, high⟩) (ends ▸ stops)
  | case2 base size single =>
      obtain rfl : size = 1 := by omega
      exact ⟨inside, starts, stops⟩

variable (compare) in
/-- Where the search ends: at an item that does not come after the key, before one that does, or at the first
item, which comes after the key. -/
theorem narrow_cases (filled : items ≠ []) :
    ∃ item, items[narrow compare items 0 items.length]? = some item ∧
      (compare item = .gt → narrow compare items 0 items.length = 0) ∧
      (compare item ≠ .gt → ∀ next, items[narrow compare items 0 items.length + 1]? = some next →
        compare next = .gt) := by
  have long : 0 < items.length := List.length_pos_iff.mpr filled
  have first : Starts compare items 0 := .inl rfl
  have last : Stops compare items (0 + items.length) := .inl (Nat.zero_add _)
  obtain ⟨inside, starts, stops⟩ := narrow_spec long (Nat.zero_add _).le first last
  refine ⟨_, List.getElem?_eq_getElem inside, fun above => ?_, fun below next found => ?_⟩
  · refine starts.resolve_right ?_
    rintro ⟨item, same, notAbove⟩
    rw [List.getElem?_eq_getElem inside, Option.some.injEq] at same
    exact notAbove (same ▸ above)
  · rcases stops with ends | ⟨item, same, above⟩ | ⟨item, same, above⟩
    · rw [ends, List.getElem?_eq_none (Nat.le_refl _)] at found
      cases found
    · rw [found, Option.some.injEq] at same
      exact same ▸ above
    · rw [Nat.add_sub_cancel, List.getElem?_eq_getElem inside, Option.some.injEq] at same
      exact absurd (same ▸ above) below

/-- The place that a search for a test finds is one where the test turns. -/
theorem turns_partitionPoint (test : α → Bool) (items : List α) :
    Cut.Turns test items (partitionPoint test items) := by
  by_cases empty : items = []
  · subst empty
    exact ⟨by simp [partitionPoint, binarySearch, narrow], by simp, by simp⟩
  · obtain ⟨found, there, above, behind⟩ :=
      narrow_cases (fun item => if test item then Ordering.lt else .gt) empty
    have inside := (List.getElem?_eq_some_iff.mp there).1
    cases tested : test found with
    | true =>
        have place : partitionPoint test items =
            narrow (fun item => if test item then .lt else .gt) items 0 items.length + 1 := by
          simp only [partitionPoint, binarySearch, there, Option.map_some, tested, if_true]
        rw [place]
        refine ⟨inside, fun item last => ?_, fun item next => ?_⟩
        · rw [List.take_add_one, there, Option.toList_some, List.getLast?_concat, Option.some.injEq] at last
          exact last ▸ tested
        · rw [List.head?_drop] at next
          simpa using behind (by simp [tested]) item next
    | false =>
        have place : partitionPoint test items = 0 := by
          simp only [partitionPoint, binarySearch, there, Option.map_some, tested]
          exact above (by simp [tested])
        rw [above (by simp [tested])] at there
        rw [place]
        refine ⟨Nat.zero_le _, by simp, fun item first => ?_⟩
        rw [List.head?_drop, there, Option.some.injEq] at first
        exact first ▸ tested

/-- A list that the test cuts in two is cut at the place found. -/
theorem at_partitionPoint (parts : Cut.Parts test items) : Cut.At test items (partitionPoint test items) :=
  (turns_partitionPoint test items).at parts

section Keys

/-- What is found is equal to the key. -/
theorem eq_of_binarySearch {place : Nat} (found : binarySearch compare items = .ok place) :
    ∃ item, items[place]? = some item ∧ compare item = .eq := by
  unfold binarySearch at found
  dsimp only at found
  split at found
  · cases found
  · rename_i same
    obtain rfl := Except.ok.inj found
    exact Option.map_eq_some_iff.mp same
  · cases found
  · cases found

/-- In a list in order an item equal to the key is found if there is one. -/
theorem ne_of_binarySearch {place : Nat} (lower : Cut.Parts (compare · = .lt) items)
    (upper : Cut.Parts (compare · ≠ .gt) items) (missed : binarySearch compare items = .error place) :
    ∀ item ∈ items, compare item ≠ .eq := by
  intro item member equal
  obtain ⟨base, there, above, behind⟩ := narrow_cases compare (List.ne_nil_of_mem member)
  obtain ⟨index, found⟩ := List.mem_iff_getElem?.mp member
  cases compared : compare base with
  | eq => simp [binarySearch, there, compared] at missed
  | lt =>
      -- An equal item stands behind the place, but what comes next is after the key.
      rcases Nat.lt_or_ge (narrow compare items 0 items.length) index with later | earlier
      · have inside := (List.getElem?_eq_some_iff.mp found).1
        have next := List.getElem?_eq_getElem (Nat.lt_of_le_of_lt later inside)
        have passed := upper.of_le later next found (by simp [equal])
        simp [behind (by simp [compared]) _ next] at passed
      · have passed := lower.of_le earlier found there (by simp [compared])
        simp [equal] at passed
  | gt =>
      rw [above compared] at there
      have passed := upper.of_le (Nat.zero_le _) there found (by simp [equal])
      simp [compared] at passed

end Keys

end RealMode.Search
