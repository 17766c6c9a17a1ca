import RealMode.Collection.Stable

/-! Stable sorting.

A list is stably sorted if its items ascend and the items of one rank stand as they stood before. Only
one list is. So whoever inserts item by item, or takes the earliest of the least items again and
again, arrives at the same list. -/

set_option autoImplicit false

namespace RealMode.Stable

variable {α : Type} {order : α → α → Ordering}

/-- The items by ascending rank. Those of one rank stay in the order in which they stand. -/
def sort (order : α → α → Ordering) (items : List α) : List α :=
  items.mergeSort fun left right => (order left right).isLE

/-- No item comes before one that stands before it. -/
def Ascending (order : α → α → Ordering) (items : List α) : Prop :=
  items.Pairwise fun left right => (order left right).isLE = true

/-- The items of the rank of `item`, in the order in which they stand. -/
def peers (order : α → α → Ordering) (item : α) (items : List α) : List α :=
  items.filter fun other => order item other = .eq

theorem mem_peers {item other : α} {items : List α} :
    other ∈ peers order item items ↔ other ∈ items ∧ order item other = .eq := by
  simp [peers]

theorem peers_cons_of_eq {item head : α} (rest : List α) (alike : order item head = .eq) :
    peers order item (head :: rest) = head :: peers order item rest := by
  simp [peers, alike]

theorem peers_cons_of_ne {item head : α} (rest : List α) (differs : order item head ≠ .eq) :
    peers order item (head :: rest) = peers order item rest := by
  simp [peers, differs]

theorem peers_append (item : α) (left right : List α) :
    peers order item (left ++ right) = peers order item left ++ peers order item right :=
  List.filter_append left right

theorem sort_perm (order : α → α → Ordering) (items : List α) : (sort order items).Perm items :=
  List.mergeSort_perm items _

@[simp] theorem sort_nil (order : α → α → Ordering) : sort order [] = [] := List.mergeSort_nil

variable [Std.TransCmp order]

theorem isLE_total (left right : α) : ((order left right).isLE || (order right left).isLE) = true := by
  have swapped : order left right = (order right left).swap := Std.OrientedCmp.eq_swap
  rw [swapped]
  cases order right left <;> rfl

theorem ascending_sort (items : List α) : Ascending order (sort order items) :=
  List.pairwise_mergeSort (fun _ _ _ => Std.TransCmp.isLE_trans) isLE_total items

/-- Sorting is stable. -/
theorem peers_sort (item : α) (items : List α) :
    peers order item (sort order items) = peers order item items := by
  have alike : (peers order item items).Pairwise fun left right => (order left right).isLE = true := by
    refine List.pairwise_of_forall_mem_list fun left leftMember right rightMember => ?_
    have leftRank := (mem_peers.mp leftMember).2
    have rightRank := (mem_peers.mp rightMember).2
    rw [← Std.TransCmp.congr_left leftRank, rightRank]
    rfl
  have kept : (peers order item items).Sublist (sort order items) :=
    List.sublist_mergeSort (fun _ _ _ => Std.TransCmp.isLE_trans) isLE_total alike List.filter_sublist
  have within : (peers order item items).Sublist (peers order item (sort order items)) := by
    have filtered := kept.filter fun other => order item other = .eq
    simpa [peers] using filtered
  exact (within.eq_of_length ((sort_perm order items).filter _).length_eq.symm).symm

theorem Ascending.isLE_head {head item : α} {rest : List α} (ascending : Ascending order (head :: rest))
    (member : item ∈ head :: rest) : (order head item).isLE = true := by
  rcases List.mem_cons.mp member with rfl | later
  · simp [Std.ReflCmp.compare_self]
  · exact List.rel_of_pairwise_cons ascending later

/-- There is one way only to put items into ascending order and to keep those of one rank as they
stand. -/
theorem eq_of_peers {left right : List α} (leftAscends : Ascending order left)
    (rightAscends : Ascending order right)
    (same : ∀ item, peers order item left = peers order item right) : left = right := by
  induction left generalizing right with
  | nil =>
      cases right with
      | nil => rfl
      | cons other others =>
          have found := same other
          simp [peers, Std.ReflCmp.compare_self] at found
  | cons head rest ih =>
      have self (item : α) : order item item = .eq := Std.ReflCmp.compare_self
      have headFound : head ∈ peers order head right := by
        rw [← same head, mem_peers]
        exact ⟨List.mem_cons_self, self head⟩
      cases right with
      | nil => simp [peers] at headFound
      | cons other others =>
          -- Each of the two first items stands in the other list, so neither comes before the other.
          have otherFound : other ∈ peers order other (head :: rest) := by
            rw [same other, mem_peers]
            exact ⟨List.mem_cons_self, self other⟩
          have below := leftAscends.isLE_head (mem_peers.mp otherFound).1
          have above := rightAscends.isLE_head (mem_peers.mp headFound).1
          have alike : order head other = .eq := Std.OrientedCmp.isLE_antisymm below above
          have ranked := same head
          rw [peers_cons_of_eq rest (self head), peers_cons_of_eq others alike] at ranked
          obtain rfl : head = other := (List.cons.inj ranked).1
          refine congrArg (List.cons head) (ih leftAscends.tail rightAscends.tail fun item => ?_)
          have ranked := same item
          by_cases peer : order item head = .eq
          · rw [peers_cons_of_eq rest peer, peers_cons_of_eq others peer] at ranked
            exact (List.cons.inj ranked).2
          · rwa [peers_cons_of_ne rest peer, peers_cons_of_ne others peer] at ranked

theorem Ascending.insert {items : List α} (ascending : Ascending order items) (item : α) :
    Ascending order (insert order item items) := by
  induction items with
  | nil => exact List.pairwise_singleton _ _
  | cons head rest ih =>
      simp only [Stable.insert]
      split
      · rename_i above
        have below : (order item head).isLE = true := by
          rw [Std.OrientedCmp.gt_iff_lt.mp above]
          rfl
        refine List.pairwise_cons.mpr ⟨fun other member => ?_, ascending⟩
        rcases List.mem_cons.mp member with rfl | later
        · exact below
        · exact Std.TransCmp.isLE_trans below (List.rel_of_pairwise_cons ascending later)
      · rename_i notAbove
        refine List.pairwise_cons.mpr ⟨fun other member => ?_, ih ascending.tail⟩
        rcases mem_insert.mp member with rfl | later
        · simpa [Ordering.isLE_iff_ne_gt] using notAbove
        · exact List.rel_of_pairwise_cons ascending later

/-- An item that is inserted stands behind its peers. -/
theorem peers_insert {items : List α} (ascending : Ascending order items) (item other : α) :
    peers order other (insert order item items) = peers order other (items ++ [item]) := by
  induction items with
  | nil => rfl
  | cons head rest ih =>
      simp only [Stable.insert]
      split
      · rename_i above
        -- All items that are there come after the one that is inserted, so none is its peer.
        by_cases peer : order other item = .eq
        · have nothing : peers order other (head :: rest) = [] := by
            refine List.filter_eq_nil_iff.mpr fun known member => ?_
            have below := Std.TransCmp.lt_of_lt_of_isLE (Std.OrientedCmp.gt_iff_lt.mp above)
              (ascending.isLE_head member)
            rw [Std.TransCmp.congr_left peer, below]
            decide
          rw [peers_cons_of_eq _ peer, peers_append, nothing, peers_cons_of_eq _ peer]
          rfl
        · rw [peers_cons_of_ne _ peer, peers_append, peers_cons_of_ne _ peer]
          simp [peers]
      · by_cases peer : order other head = .eq
        · rw [peers_cons_of_eq _ peer, List.cons_append, peers_cons_of_eq _ peer, ih ascending.tail]
        · rw [peers_cons_of_ne _ peer, List.cons_append, peers_cons_of_ne _ peer, ih ascending.tail]

/-- Sorting is insertion of one item after the other. -/
theorem sort_concat (items : List α) (item : α) :
    sort order (items ++ [item]) = insert order item (sort order items) := by
  have ascending : Ascending order (sort order items) := ascending_sort items
  refine eq_of_peers (ascending_sort _) (ascending.insert item) fun other => ?_
  rw [peers_sort, peers_insert ascending, peers_append, peers_append, peers_sort]

/-- The earliest of the least items stands first. -/
theorem sort_of_least {earlier later : List α} {item : α}
    (above : ∀ other ∈ earlier, order item other = .lt)
    (notBelow : ∀ other ∈ later, (order item other).isLE = true) :
    sort order (earlier ++ item :: later) = item :: sort order (earlier ++ later) := by
  have first : Ascending order (item :: sort order (earlier ++ later)) := by
    refine List.pairwise_cons.mpr ⟨fun other member => ?_, ascending_sort _⟩
    rcases List.mem_append.mp ((sort_perm order _).mem_iff.mp member) with found | found
    · simp [above other found]
    · exact notBelow other found
  refine eq_of_peers (ascending_sort _) first fun other => ?_
  rw [peers_sort, peers_append]
  by_cases peer : order other item = .eq
  · -- Nothing that arrived earlier is of the same rank.
    have nothing : peers order other earlier = [] := by
      refine List.filter_eq_nil_iff.mpr fun known member => ?_
      rw [Std.TransCmp.congr_left peer, above known member]
      decide
    rw [peers_cons_of_eq _ peer, peers_cons_of_eq _ peer, peers_sort, peers_append, nothing]
    rfl
  · rw [peers_cons_of_ne _ peer, peers_cons_of_ne _ peer, peers_sort, peers_append]

end RealMode.Stable
