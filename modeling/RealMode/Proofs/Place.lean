import RealMode.Address

/-! Places and their order. -/

set_option autoImplicit false

namespace RealMode.Place

theorem eq_of_not_lt {left right : Place} (low : ¬left < right) (high : ¬right < left) :
    left = right := by
  obtain ⟨image, offset⟩ := left
  obtain ⟨otherImage, otherOffset⟩ := right
  rw [lt_iff] at low high
  dsimp only at low high
  rw [mk.injEq]
  omega

theorem lt_of_not_lt {left right : Place} (high : ¬right < left) (differ : left ≠ right) :
    left < right :=
  Decidable.byContradiction fun low => differ (eq_of_not_lt low high)

theorem lt_trans {low middle high : Place} (first : low < middle) (second : middle < high) :
    low < high := by
  rw [lt_iff] at *
  omega

theorem not_lt_trans {low middle high : Place} (first : ¬middle < low) (second : ¬high < middle) :
    ¬high < low := by
  rw [lt_iff] at *
  omega

theorem not_lt_of_lt {low high : Place} (less : low < high) : ¬high < low := by
  rw [lt_iff] at *
  omega

theorem add_add (place : Place) (first second : Nat) :
    (place.add first).add second = place.add (first + second) := by
  simp only [add, Nat.add_assoc]

theorem least?_cons_cons (first second : Place) (rest : List Place) :
    least? (first :: second :: rest) =
      least? ((if second < first then second else first) :: rest) := rfl

/-- The least place of a list is a place of the list with none before it. -/
theorem least?_eq_some_iff {places : List Place} {least : Place} :
    least? places = some least ↔ least ∈ places ∧ ∀ place ∈ places, ¬place < least := by
  cases places with
  | nil => simp [least?]
  | cons first rest =>
      -- The candidate for the least place stands in front of those that are still to be looked at.
      induction rest generalizing first with
      | nil =>
          simp only [least?, List.foldl_nil, Option.some.injEq, List.mem_singleton, forall_eq]
          constructor
          · rintro rfl
            exact ⟨rfl, fun less => not_lt_of_lt less less⟩
          · rintro ⟨rfl, -⟩
            rfl
      | cons second rest ih =>
          rw [least?_cons_cons, ih]
          split
          · rename_i less
            have worse := not_lt_of_lt less
            simp only [List.mem_cons, forall_eq_or_imp]
            constructor
            · rintro ⟨member, low, others⟩
              exact ⟨.inr member, not_lt_trans low worse, low, others⟩
            · rintro ⟨rfl | member, low, lower, others⟩
              · exact absurd less lower
              · exact ⟨member, lower, others⟩
          · rename_i notLess
            simp only [List.mem_cons, forall_eq_or_imp]
            constructor
            · rintro ⟨rfl | member, low, others⟩
              · exact ⟨.inl rfl, low, notLess, others⟩
              · exact ⟨.inr (.inr member), low, not_lt_trans low notLess, others⟩
            · rintro ⟨rfl | rfl | member, low, lower, others⟩
              · exact ⟨.inl rfl, low, others⟩
              · exact ⟨.inl (eq_of_not_lt notLess low), low, others⟩
              · exact ⟨.inr member, low, others⟩

end RealMode.Place
