import Mathlib.Data.List.Perm.Subperm
import RealMode.Collection.Arena

/-! Chains of edges through an array.

A chain is finite by its derivation, so it has each place once, and whoever follows it comes to its end. It
depends only on what is read at its places: on each place the edge, and the place behind it. -/

set_option autoImplicit false

namespace RealMode.Arena

variable {ε : Type}

/-- What the slot at a place says about one side. -/
def read (slots : Array (Slot ε)) (side : Side) (place : Nat) : Option (ε × Option Nat) :=
  slots[place]?.map fun slot => (slot.edge, slot.next side)

theorem lt_of_read {slots : Array (Slot ε)} {side : Side} {place : Nat} {seen : ε × Option Nat}
    (found : read slots side place = some seen) : place < slots.size := by
  obtain ⟨slot, there, -⟩ := Option.map_eq_some_iff.mp found
  exact (Array.getElem?_eq_some_iff.mp there).1

/-- From a cursor on there are these edges, with their places, and nothing behind them. -/
inductive Chain (view : Nat → Option (ε × Option Nat)) : Option Nat → List (Nat × ε) → Prop
  | done : Chain view none []
  | step {place : Nat} {edge : ε} {next : Option Nat} {rest : List (Nat × ε)} :
      view place = some (edge, next) → Chain view next rest →
      Chain view (some place) ((place, edge) :: rest)

/-- The place at which a row of edges begins. -/
def firstPlace (entries : List (Nat × ε)) : Option Nat := entries.head?.map Prod.fst

def lastPlace (entries : List (Nat × ε)) : Option Nat := entries.getLast?.map Prod.fst

theorem lastPlace_cons (entry : Nat × ε) (rest : List (Nat × ε)) :
    lastPlace (entry :: rest) = (lastPlace rest).or (some entry.1) := by
  unfold lastPlace
  rw [List.getLast?_cons]
  cases rest.getLast? <;> rfl

theorem lastPlace_append (left right : List (Nat × ε)) :
    lastPlace (left ++ right) = (lastPlace right).or (lastPlace left) := by
  unfold lastPlace
  rw [List.getLast?_append]
  cases right.getLast? <;> rfl

theorem lastPlace_eq_none_iff {entries : List (Nat × ε)} : lastPlace entries = none ↔ entries = [] := by
  simp [lastPlace]

theorem mem_of_lastPlace {entries : List (Nat × ε)} {place : Nat} (last : lastPlace entries = some place) :
    place ∈ entries.map Prod.fst := by
  obtain ⟨entry, found, rfl⟩ := Option.map_eq_some_iff.mp last
  exact List.mem_map_of_mem (List.mem_of_getLast? found)

theorem lastPlace_ne {left right : List (Nat × ε)} {place : Nat}
    (fresh : place ∉ (left ++ right).map Prod.fst) : lastPlace left ≠ some place := fun same =>
  fresh (List.map_subset _ (List.subset_append_left left right) (mem_of_lastPlace same))

namespace Chain

section Views

variable {view other : Nat → Option (ε × Option Nat)} {cursor : Option Nat} {entries : List (Nat × ε)}

theorem cursor_eq (chain : Chain view cursor entries) : cursor = firstPlace entries := by
  cases chain <;> rfl

theorem congr (chain : Chain view cursor entries)
    (alike : ∀ entry ∈ entries, other entry.1 = view entry.1) : Chain other cursor entries := by
  induction chain with
  | done => exact .done
  | step seen _ ih =>
      refine .step ((alike _ List.mem_cons_self).trans seen) (ih fun entry member => ?_)
      exact alike entry (List.mem_cons_of_mem _ member)

theorem view_of_mem (chain : Chain view cursor entries) {entry : Nat × ε} (member : entry ∈ entries) :
    ∃ next, view entry.1 = some (entry.2, next) := by
  induction chain with
  | done => cases member
  | step seen _ ih =>
      rcases List.mem_cons.mp member with rfl | later
      · exact ⟨_, seen⟩
      · exact ih later

/-- Behind the last edge of a front part there is the first one of the rest. -/
theorem next_of_last {left right : List (Nat × ε)} (chain : Chain view cursor (left ++ right))
    {place : Nat} (last : lastPlace left = some place) :
    ∃ edge, (place, edge) ∈ left ∧ view place = some (edge, firstPlace right) := by
  induction left generalizing cursor with
  | nil => cases last
  | cons entry rest ih =>
      cases chain with
      | step seen behind =>
          cases rest with
          | nil =>
              obtain rfl : _ = place := Option.some.inj last
              exact ⟨_, List.mem_cons_self, behind.cursor_eq ▸ seen⟩
          | cons second others =>
              obtain ⟨edge, member, found⟩ := ih behind last
              exact ⟨edge, List.mem_cons_of_mem _ member, found⟩

theorem of_append {left right : List (Nat × ε)} (chain : Chain view cursor (left ++ right)) :
    Chain view (firstPlace right) right := by
  induction left generalizing cursor with
  | nil => exact chain.cursor_eq ▸ chain
  | cons entry rest ih =>
      cases chain with
      | step _ behind => exact ih behind

theorem unique {others : List (Nat × ε)} (chain : Chain view cursor entries)
    (other : Chain view cursor others) : entries = others := by
  induction chain generalizing others with
  | done =>
      cases other
      rfl
  | step seen _ ih =>
      cases other with
      | step again behind =>
          obtain ⟨rfl, rfl⟩ := Prod.mk.inj (Option.some.inj (seen.symm.trans again))
          rw [ih behind]

/-- No chain comes back to one of its places, since it would go on from there as it did before. -/
theorem nodup (chain : Chain view cursor entries) : (entries.map Prod.fst).Nodup := by
  induction chain with
  | done => exact List.nodup_nil
  | @step place edge next rest seen behind ih =>
      refine List.nodup_cons.mpr ⟨fun again => ?_, ih⟩
      obtain ⟨entry, member, rfl⟩ := List.mem_map.mp again
      obtain ⟨left, right, rfl⟩ := List.append_of_mem member
      -- Both from the place on and from its second mention on there is the same chain.
      have same := (Chain.step seen behind).unique behind.of_append
      have longer := congrArg List.length same
      simp at longer
      omega

/-- A front part of a chain goes on elsewhere when its last edge leads there. -/
theorem rejoin {left right others : List (Nat × ε)} {target : Option Nat}
    (chain : Chain view cursor (left ++ right)) (behind : Chain other target others) (filled : left ≠ [])
    (relinked : ∀ place edge, (place, edge) ∈ left → lastPlace left = some place →
      other place = some (edge, target))
    (kept : ∀ entry ∈ left, lastPlace left ≠ some entry.1 → other entry.1 = view entry.1) :
    Chain other cursor (left ++ others) := by
  induction left generalizing cursor with
  | nil => exact absurd rfl filled
  | cons entry rest ih =>
      cases chain with
      | @step place edge next _ seen chain =>
          by_cases single : rest = []
          · subst single
            exact .step (relinked place edge List.mem_cons_self rfl) behind
          · have shift : lastPlace ((place, edge) :: rest) = lastPlace rest := by
              rw [lastPlace_cons]
              exact Option.or_of_isSome (Option.isSome_iff_ne_none.mpr (mt lastPlace_eq_none_iff.mp single))
            rw [shift] at relinked kept
            have apart : lastPlace rest ≠ some place :=
              lastPlace_ne (List.nodup_cons.mp (Chain.step seen chain).nodup).1
            refine .step ((kept _ List.mem_cons_self apart).trans seen) (ih chain single ?_ ?_)
            · exact fun place edge member => relinked place edge (List.mem_cons_of_mem _ member)
            · exact fun entry member => kept entry (List.mem_cons_of_mem _ member)

/-- An edge enters a chain: the last edge before it now leads to it, and it leads to the first edge behind
it. Whatever else is read in the chain stays. -/
theorem insert {left right : List (Nat × ε)} (chain : Chain view cursor (left ++ right))
    {place : Nat} {edge : ε} (entered : other place = some (edge, firstPlace right))
    (relinked : ∀ last edge, (last, edge) ∈ left → lastPlace left = some last →
      other last = some (edge, some place))
    (kept : ∀ entry ∈ left ++ right, lastPlace left ≠ some entry.1 → other entry.1 = view entry.1) :
    Chain other (if left = [] then some place else cursor) (left ++ (place, edge) :: right) := by
  have once := chain.nodup
  rw [List.map_append] at once
  obtain ⟨-, -, apart⟩ := List.nodup_append.mp once
  -- The rest of the chain is read as before, since the link that changes is in front of it.
  have behind : Chain other (some place) ((place, edge) :: right) := by
    refine .step entered (chain.of_append.congr fun entry member => ?_)
    refine kept entry (List.mem_append_right _ member) fun same => ?_
    exact apart _ (mem_of_lastPlace same) _ (List.mem_map_of_mem member) rfl
  by_cases start : left = []
  · rw [if_pos start, start]
    exact behind
  · rw [if_neg start]
    exact chain.rejoin behind start relinked fun entry member => kept entry (List.mem_append_left _ member)

end Views

variable {slots : Array (Slot ε)} {side : Side} {cursor : Option Nat} {entries : List (Nat × ε)}

/-- A chain has no more edges than there are slots. -/
theorem length_le (chain : Chain (read slots side) cursor entries) : entries.length ≤ slots.size := by
  have inside : entries.map Prod.fst ⊆ List.range slots.size := by
    intro place member
    obtain ⟨entry, listed, rfl⟩ := List.mem_map.mp member
    obtain ⟨next, seen⟩ := chain.view_of_mem listed
    exact List.mem_range.mpr (lt_of_read seen)
  simpa using (chain.nodup.subperm inside).length_le

theorem walk {limit : Nat} (chain : Chain (read slots side) cursor entries)
    (enough : entries.length ≤ limit) : walk slots side limit cursor = some (entries.map Prod.snd) := by
  induction chain generalizing limit with
  | done => rw [Arena.walk, List.map_nil]
  | step seen _ ih =>
      obtain ⟨slot, found, same⟩ := Option.map_eq_some_iff.mp seen
      obtain ⟨rfl, rfl⟩ := Prod.mk.inj same
      obtain ⟨limit, rfl⟩ := Nat.exists_eq_add_one_of_ne_zero (Nat.ne_zero_of_lt enough)
      rw [Arena.walk]
      simp [found, ih (Nat.le_of_succ_le_succ enough)]

/-- The search for a place passes the edges in front that do not come after the new one. -/
theorem lastBefore {limit : Nat} (order : ε → ε → Ordering) (edge : ε) (passed : Option Nat)
    (chain : Chain (read slots side) cursor entries) (enough : entries.length ≤ limit) :
    lastBefore order slots side edge limit passed cursor =
      some ((lastPlace (entries.takeWhile fun entry => order entry.2 edge ≠ .gt)).or passed) := by
  induction chain generalizing passed limit with
  | done =>
      rw [Arena.lastBefore]
      rfl
  | step seen _ ih =>
      obtain ⟨slot, found, same⟩ := Option.map_eq_some_iff.mp seen
      obtain ⟨rfl, rfl⟩ := Prod.mk.inj same
      obtain ⟨limit, rfl⟩ := Nat.exists_eq_add_one_of_ne_zero (Nat.ne_zero_of_lt enough)
      rw [Arena.lastBefore]
      by_cases comes : order slot.edge edge = .gt
      · simp [found, comes, lastPlace]
      · simp [found, comes, ih _ (Nat.le_of_succ_le_succ enough), lastPlace_cons]

end Chain

variable {slots : Array (Slot ε)} {side : Side} {cursor : Option Nat} {edges : List ε}

theorem exists_chain_of_walk {limit : Nat} (walked : walk slots side limit cursor = some edges) :
    ∃ entries, Chain (read slots side) cursor entries ∧ entries.map Prod.snd = edges := by
  induction limit generalizing cursor edges with
  | zero =>
      cases cursor with
      | none =>
          obtain rfl : [] = edges := Option.some.inj walked
          exact ⟨[], .done, rfl⟩
      | some place => cases walked
  | succ limit ih =>
      cases cursor with
      | none =>
          obtain rfl : [] = edges := Option.some.inj walked
          exact ⟨[], .done, rfl⟩
      | some place =>
          obtain ⟨slot, found, walked⟩ := Option.bind_eq_some_iff.mp walked
          obtain ⟨rest, onward, same⟩ := Option.bind_eq_some_iff.mp walked
          obtain rfl : slot.edge :: rest = edges := Option.some.inj same
          obtain ⟨entries, chain, rfl⟩ := ih onward
          exact ⟨(place, slot.edge) :: entries, .step (by rw [read, found]; rfl) chain, rfl⟩

/-- Whoever follows links is given the edges of a chain, and the number of slots keeps nobody from coming to
the end of one. -/
theorem walk_eq_some_iff :
    walk slots side slots.size cursor = some edges ↔
      ∃ entries, Chain (read slots side) cursor entries ∧ entries.map Prod.snd = edges := by
  constructor
  · exact exists_chain_of_walk
  · rintro ⟨entries, chain, rfl⟩
    exact chain.walk chain.length_le

end RealMode.Arena
