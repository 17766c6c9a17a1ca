/-! Stable insertion: an item goes behind everything that does not come after it. -/

set_option autoImplicit false

namespace RealMode.Stable

variable {α : Type}

/-- Inserts an item before the first one that the order places after it. -/
def insert (order : α → α → Ordering) (item : α) : List α → List α
  | [] => [item]
  | head :: rest =>
      if order head item = .gt then item :: head :: rest else head :: insert order item rest

theorem insert_perm (order : α → α → Ordering) (item : α) (items : List α) :
    (insert order item items).Perm (item :: items) := by
  induction items with
  | nil => exact .refl _
  | cons head rest ih =>
      simp only [insert]
      split
      · exact .refl _
      · exact (ih.cons head).trans (.swap item head rest)

theorem mem_insert {order : α → α → Ordering} {item other : α} {items : List α} :
    other ∈ insert order item items ↔ other = item ∨ other ∈ items := by
  rw [(insert_perm order item items).mem_iff, List.mem_cons]

end RealMode.Stable
