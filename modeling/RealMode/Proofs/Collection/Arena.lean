import RealMode.Proofs.Collection.Adjacency
import RealMode.Proofs.Collection.Chain
import RealMode.Reference.Log

/-! Linked edges against the lists of a plain graph.

On each side an edge belongs to one node at most, so the chains of two nodes have no place in common, and
an edge that enters one of them leaves the others alone. What a node lists is then what the plain graph
lists, and no chain runs in a circle. -/

set_option autoImplicit false

namespace RealMode.Arena

variable {ε ν : Type}

section Slots

theorem Slot.next_withNext (slot : Slot ε) (next : Option Nat) (side other : Side) :
    (slot.withNext next side).next other = if side = other then next else slot.next other := by
  cases side <;> cases other <;> rfl

theorem Slot.edge_withNext (slot : Slot ε) (next : Option Nat) (side : Side) :
    (slot.withNext next side).edge = slot.edge := by
  cases side <;> rfl

/-- The slots in which one place leads elsewhere on one side. -/
def lead (slots : Array (Slot ε)) (place : Nat) (next : Option Nat) (side : Side) : Array (Slot ε) :=
  slots.modify place fun slot => slot.withNext next side

@[simp] theorem size_lead (slots : Array (Slot ε)) (place : Nat) (next : Option Nat) (side : Side) :
    (lead slots place next side).size = slots.size := by
  simp [lead]

theorem setNext_eq {slots : Array (Slot ε)} {place : Nat} (inside : place < slots.size)
    (next : Option Nat) (side : Side) : setNext slots place next side = some (lead slots place next side) :=
  if_pos inside

theorem map_edge_lead (slots : Array (Slot ε)) (place : Nat) (next : Option Nat) (side : Side) :
    (lead slots place next side).map Slot.edge = slots.map Slot.edge := by
  apply Array.ext
  · simp
  · intro index inside _
    simp only [lead, Array.getElem_map, Array.getElem_modify]
    split
    · exact Slot.edge_withNext ..
    · rfl

theorem read_lead (slots : Array (Slot ε)) (place : Nat) (next : Option Nat) (side other : Side)
    (index : Nat) :
    read (lead slots place next side) other index =
      if place = index ∧ side = other then (read slots other index).map fun seen => (seen.1, next)
      else read slots other index := by
  unfold read lead
  rw [Array.getElem?_modify]
  by_cases same : place = index
  · cases slots[index]? with
    | none => simp
    | some slot => by_cases also : side = other <;> simp [same, also, Slot.next_withNext, Slot.edge_withNext]
  · simp [same]

end Slots

section Ends

theorem Ends.first_enter (ends : Ends) (side other : Side) (place : Nat) (behind next : Option Nat) :
    (ends.enter side place behind next).first other =
      if side = other ∧ behind = none then some place else ends.first other := by
  cases side <;> cases other <;> cases behind <;> rfl

theorem Ends.last_enter (ends : Ends) (side other : Side) (place : Nat) (behind next : Option Nat) :
    (ends.enter side place behind next).last other =
      if side = other ∧ next = none then some place else ends.last other := by
  cases side <;> cases other <;> cases next <;> rfl

end Ends

/-- The edges before and behind a new one. -/
def cut (order : Option (ε → ε → Ordering)) (edge : ε) (entries : List (Nat × ε)) :
    List (Nat × ε) × List (Nat × ε) :=
  match order with
  | none => (entries, [])
  | some order =>
      let passes := fun (entry : Nat × ε) => decide (order entry.2 edge ≠ .gt)
      (entries.takeWhile passes, entries.dropWhile passes)

theorem cut_append (order : Option (ε → ε → Ordering)) (edge : ε) (entries : List (Nat × ε)) :
    (cut order edge entries).1 ++ (cut order edge entries).2 = entries := by
  cases order <;> simp [cut]

theorem insertEdge_eq_cut (order : Option (ε → ε → Ordering)) (edge : ε) (entries : List (Nat × ε)) :
    Graph.insertEdge order edge (entries.map Prod.snd) =
      (cut order edge entries).1.map Prod.snd ++ edge :: (cut order edge entries).2.map Prod.snd := by
  cases order with
  | none => simp [Graph.insertEdge, cut]
  | some order =>
      simp only [Graph.insertEdge, cut]
      induction entries with
      | nil => rfl
      | cons entry rest ih =>
          by_cases comes : order entry.2 edge = .gt
          · simp [Stable.insert, comes]
          · simp [Stable.insert, comes, ih]

section Linking

variable [DecidableEq ν]

def endsAt (arena : Arena ε ν) (node : ν) : Ends := Keyed.valueAt .empty arena.nodes node

variable [Edge ε ν]

/-- The chain of a node on one side. Its edges have the node as their end there. -/
structure Lists (arena : Arena ε ν) (side : Side) (node : ν) (entries : List (Nat × ε)) : Prop where
  chain : Chain (read arena.slots side) ((arena.endsAt node).first side) entries
  last : (arena.endsAt node).last side = lastPlace entries
  own : ∀ entry ∈ entries, side.node? entry.2 = some node

variable {arena : Arena ε ν} {side : Side} {node : ν} {entries : List (Nat × ε)}

/-- The slots behind the entry of the edge at a place between others. -/
def entered (slots : Array (Slot ε)) (side : Side) (place : Nat) (left right : List (Nat × ε)) :
    Array (Slot ε) :=
  let led := lead slots place (firstPlace right) side
  match lastPlace left with
  | some passed => lead led passed (some place) side
  | none => led

/-- The arena behind the entry of the edge at a place between others. -/
def inserted (arena : Arena ε ν) (node : ν) (place : Nat) (side : Side) (left right : List (Nat × ε)) :
    Arena ε ν :=
  ⟨arena.order, entered arena.slots side place left right,
    Keyed.update .empty node (Ends.enter side place (lastPlace left) (firstPlace right)) arena.nodes⟩

theorem Lists.placeBehind_eq (lists : arena.Lists side node entries) (order : Option (ε → ε → Ordering))
    (edge : ε) :
    placeBehind order arena.slots side edge (arena.endsAt node) =
      some (lastPlace (cut order edge entries).1) := by
  unfold placeBehind
  rw [lists.last]
  cases order with
  | none => cases last : lastPlace entries <;> simp [cut, last]
  | some order =>
      cases last : lastPlace entries with
      | none =>
          obtain rfl := lastPlace_eq_none_iff.mp last
          rfl
      | some place => simp [lists.chain.lastBefore _ _ _ lists.chain.length_le, cut]

theorem Lists.placeNext_eq (lists : arena.Lists side node entries) {left right : List (Nat × ε)}
    (split : left ++ right = entries) :
    placeNext arena.slots side (arena.endsAt node) (lastPlace left) = some (firstPlace right) := by
  have chain := lists.chain
  rw [← split] at chain
  unfold placeNext
  cases last : lastPlace left with
  | none =>
      obtain rfl := lastPlace_eq_none_iff.mp last
      exact congrArg some chain.cursor_eq
  | some place =>
      obtain ⟨edge, -, seen⟩ := chain.next_of_last last
      obtain ⟨slot, found, same⟩ := Option.map_eq_some_iff.mp seen
      simp [found, (Prod.mk.inj same).2]

/-- The search for a place and the links at it, in one. -/
theorem Lists.link_eq (lists : arena.Lists side node entries) {place : Nat} {slot : Slot ε}
    (found : arena.slots[place]? = some slot) {left right : List (Nat × ε)}
    (split : cut arena.order slot.edge entries = (left, right)) :
    arena.link node place side =
      some (arena.inserted node place side left right) := by
  obtain ⟨inside, -⟩ := Array.getElem?_eq_some_iff.mp found
  have behind := lists.placeBehind_eq arena.order slot.edge
  have parts := cut_append arena.order slot.edge entries
  rw [split] at behind parts
  have next := lists.placeNext_eq parts
  rw [endsAt] at behind next
  simp only [link, found, behind, next, setNext_eq inside, Option.bind_eq_bind, Option.bind_some, inserted, entered]
  cases last : lastPlace left with
  | none => rfl
  | some passed =>
      have chain := lists.chain
      rw [← parts] at chain
      obtain ⟨edge, -, seen⟩ := chain.next_of_last last
      have within : passed < (lead arena.slots place (firstPlace right) side).size := by
        rw [size_lead]
        exact lt_of_read seen
      simp [setNext_eq within]

/-- What an edge that enters changes: on its own side it leads to the edges behind it, and the last edge
before it leads to it. -/
theorem read_entered (slots : Array (Slot ε)) (side : Side) {place : Nat} {left : List (Nat × ε)}
    (right : List (Nat × ε)) (apart : lastPlace left ≠ some place) (other : Side) (index : Nat) :
    read (entered slots side place left right) other index =
      if side = other ∧ place = index then (read slots other index).map fun seen => (seen.1, firstPlace right)
      else if side = other ∧ lastPlace left = some index then
        (read slots other index).map fun seen => (seen.1, some place)
      else read slots other index := by
  unfold entered
  cases last : lastPlace left with
  | none => simp [read_lead, and_comm]
  | some passed =>
      have differs : passed ≠ place := fun same => apart (same ▸ last)
      simp only [read_lead]
      grind

omit [Edge ε ν] in
theorem endsAt_inserted (arena : Arena ε ν) (node other : ν) (place : Nat) (side : Side)
    (left right : List (Nat × ε)) :
    (arena.inserted node place side left right).endsAt other =
      if node = other then (arena.endsAt node).enter side place (lastPlace left) (firstPlace right)
      else arena.endsAt other :=
  Keyed.valueAt_update ..

/-- The node at which an edge enters lists it between the others. -/
theorem Lists.insert {left right : List (Nat × ε)} (lists : arena.Lists side node (left ++ right))
    {place : Nat} {slot : Slot ε} (found : arena.slots[place]? = some slot)
    (ends : side.node? slot.edge = some node) (fresh : place ∉ (left ++ right).map Prod.fst) :
    (arena.inserted node place side left right).Lists side node (left ++ (place, slot.edge) :: right) := by
  have differs (entry : Nat × ε) (member : entry ∈ left ++ right) : place ≠ entry.1 := fun same =>
    fresh (same ▸ List.mem_map_of_mem member)
  have view := read_entered arena.slots side right (lastPlace_ne fresh) side
  refine ⟨?_, ?_, fun entry member => ?_⟩
  · have seen : read arena.slots side place = some (slot.edge, slot.next side) := by simp [read, found]
    have new : read (entered arena.slots side place left right) side place =
        some (slot.edge, firstPlace right) := by simp [view, seen]
    have chain := lists.chain.insert new ?_ ?_
    · rw [endsAt_inserted, if_pos rfl, Ends.first_enter]
      simp only [lastPlace_eq_none_iff, true_and]
      exact chain
    · intro last edge member same
      obtain ⟨next, seen⟩ := lists.chain.view_of_mem (List.mem_append_left _ member)
      simp [view, differs _ (List.mem_append_left _ member), same, seen]
    · intro entry member notLast
      simp [view, differs entry member, notLast]
  · rw [endsAt_inserted, if_pos rfl, Ends.last_enter, lists.last, lastPlace_append, lastPlace_append,
      lastPlace_cons]
    cases right with
    | nil => simp [firstPlace, lastPlace]
    | cons entry rest => simp [firstPlace, lastPlace_cons]
  · rcases List.mem_append.mp member with front | back
    · exact lists.own entry (List.mem_append_left _ front)
    · rcases List.mem_cons.mp back with rfl | back
      · exact ends
      · exact lists.own entry (List.mem_append_right _ back)

/-- Another chain stays as it is: it is on the other side, or it belongs to another node, to which no edge
of this chain belongs. -/
theorem Lists.insert_other {left right others : List (Nat × ε)} {other : Side} {reached : ν}
    (lists : arena.Lists side node (left ++ right)) (also : arena.Lists other reached others)
    (differs : ¬(side = other ∧ node = reached)) {place : Nat}
    (fresh : side = other → place ∉ others.map Prod.fst)
    (new : place ∉ (left ++ right).map Prod.fst) :
    (arena.inserted node place side left right).Lists other reached others := by
  have view := read_entered arena.slots side right (lastPlace_ne new) other
  refine ⟨?_, ?_, also.own⟩
  · have first : ((arena.inserted node place side left right).endsAt reached).first other =
        (arena.endsAt reached).first other := by
      rw [endsAt_inserted]
      split
      · rename_i same
        rw [Ends.first_enter, if_neg fun both => differs ⟨both.1, same⟩, same]
      · rfl
    rw [first]
    refine also.chain.congr fun entry member => (view entry.1).trans ?_
    rw [if_neg, if_neg]
    · -- The last edge before the new one belongs to the other node, and an edge has one end on a side.
      rintro ⟨rfl, last⟩
      obtain ⟨edge, listed, seen⟩ := lists.chain.next_of_last last
      obtain ⟨next, again⟩ := also.chain.view_of_mem member
      obtain ⟨rfl, -⟩ := Prod.mk.inj (Option.some.inj (seen.symm.trans again))
      have belongs := lists.own _ (List.mem_append_left _ listed)
      exact differs ⟨rfl, Option.some.inj (belongs.symm.trans (also.own entry member))⟩
    · exact fun same => fresh same.1 (same.2 ▸ List.mem_map_of_mem member)
  · rw [endsAt_inserted]
    split
    · rename_i same
      rw [Ends.last_enter, if_neg fun both => differs ⟨both.1, same⟩, same, also.last]
    · exact also.last

/-- Every node lists given edges on both sides, at places below a limit. -/
def Linked (arena : Arena ε ν) (limit : Side → Nat) (listing : Side → ν → List ε) : Prop :=
  ∀ side node, ∃ entries, arena.Lists side node entries ∧ (∀ entry ∈ entries, entry.1 < limit side) ∧
    entries.map Prod.snd = listing side node

/-- The limits behind the edge at one of them. -/
def raise (limit : Side → Nat) (side other : Side) : Nat :=
  if side = other then limit side + 1 else limit other

theorem le_raise (limit : Side → Nat) (side other : Side) : limit other ≤ raise limit side other := by
  unfold raise
  split
  · rename_i same
    exact same ▸ Nat.le_succ _
  · exact Nat.le_refl _

section Limits

variable {limit : Side → Nat} {entries : List (Nat × ε)}

theorem below_raise {other : Side} (below : ∀ entry ∈ entries, entry.1 < limit other) (side : Side) :
    ∀ entry ∈ entries, entry.1 < raise limit side other := fun entry member =>
  Nat.lt_of_lt_of_le (below entry member) (le_raise limit side other)

/-- The place at the limit is new. -/
theorem limit_not_mem {side : Side} (below : ∀ entry ∈ entries, entry.1 < limit side) :
    limit side ∉ entries.map Prod.fst := by
  intro member
  obtain ⟨entry, inside, same⟩ := List.mem_map.mp member
  exact absurd (below entry inside) (same ▸ Nat.lt_irrefl _)

end Limits

/-- What the nodes list when an edge has entered on one side. -/
def listingBehind (order : Option (ε → ε → Ordering)) (edge : ε) (side : Side)
    (listing : Side → ν → List ε) (other : Side) (node : ν) : List ε :=
  if side = other ∧ side.node? edge = some node then Graph.insertEdge order edge (listing other node)
  else listing other node

theorem map_edge_entered (slots : Array (Slot ε)) (side : Side) (place : Nat) (left right : List (Nat × ε)) :
    (entered slots side place left right).map Slot.edge = slots.map Slot.edge := by
  unfold entered
  cases lastPlace left <;> simp only [map_edge_lead]

/-- The edge at the limit of a side enters a chain of its end, and the others stay. -/
theorem Linked.link {limit : Side → Nat} {listing : Side → ν → List ε} (linked : arena.Linked limit listing)
    {slot : Slot ε} (found : arena.slots[limit side]? = some slot)
    (ends : side.node? slot.edge = some node) :
    ∃ behind : Arena ε ν, arena.link node (limit side) side = some behind ∧
      behind.order = arena.order ∧ behind.slots.map Slot.edge = arena.slots.map Slot.edge ∧
      behind.nodes.map Prod.fst = Keyed.enter (arena.nodes.map Prod.fst) node ∧
      behind.Linked (raise limit side) (listingBehind arena.order slot.edge side listing) := by
  obtain ⟨entries, lists, below, listed⟩ := linked side node
  have parts := cut_append arena.order slot.edge entries
  have edges := insertEdge_eq_cut arena.order slot.edge entries
  generalize split : cut arena.order slot.edge entries = pair at parts edges
  obtain ⟨left, right⟩ := pair
  dsimp only at parts edges
  have fresh := limit_not_mem below
  have wider := below_raise below side
  have linkedBehind := lists.link_eq found split
  rw [← parts] at lists fresh wider
  refine ⟨_, linkedBehind, rfl, map_edge_entered .., Keyed.keys_update .., fun other reached => ?_⟩
  by_cases both : side = other ∧ node = reached
  · obtain ⟨rfl, rfl⟩ := both
    refine ⟨_, lists.insert found ends fresh, ?_, ?_⟩
    · intro entry member
      rcases List.mem_append.mp member with front | back
      · exact wider entry (List.mem_append_left _ front)
      · rcases List.mem_cons.mp back with rfl | back
        · simp [raise]
        · exact wider entry (List.mem_append_right _ back)
    · rw [listingBehind, if_pos ⟨rfl, ends⟩, ← listed, edges, List.map_append, List.map_cons]
  · obtain ⟨others, also, under, alike⟩ := linked other reached
    refine ⟨others, lists.insert_other also both ?_ fresh, below_raise under side, ?_⟩
    · rintro rfl
      exact limit_not_mem under
    · rw [listingBehind, if_neg, alike]
      exact fun same => both ⟨same.1, Option.some.inj (ends.symm.trans same.2)⟩

/-- The edge at the limit of a side enters there if it has an end, and nothing else changes. -/
theorem Linked.linkEnd {limit : Side → Nat} {listing : Side → ν → List ε} (linked : arena.Linked limit listing)
    (side : Side) {edge : ε} (found : (arena.slots.map Slot.edge)[limit side]? = some edge) :
    ∃ behind : Arena ε ν, arena.linkEnd edge (limit side) side = some behind ∧
      behind.order = arena.order ∧ behind.slots.map Slot.edge = arena.slots.map Slot.edge ∧
      behind.nodes.map Prod.fst = (side.node? edge).toList.foldl Keyed.enter (arena.nodes.map Prod.fst) ∧
      behind.Linked (raise limit side) (listingBehind arena.order edge side listing) := by
  rw [Array.getElem?_map] at found
  obtain ⟨slot, there, rfl⟩ := Option.map_eq_some_iff.mp found
  unfold Arena.linkEnd
  cases ends : (side.node? slot.edge : Option ν) with
  | none =>
      refine ⟨arena, rfl, rfl, rfl, rfl, fun other reached => ?_⟩
      obtain ⟨entries, lists, below, listed⟩ := linked other reached
      exact ⟨entries, lists, below_raise below side, by simpa [listingBehind, ends] using listed⟩
  | some node => exact linked.link there ends

/-- A new slot that no chain has reached yet changes nothing. -/
theorem Linked.push {limit : Side → Nat} {listing : Side → ν → List ε} (linked : arena.Linked limit listing)
    (inside : ∀ side, limit side ≤ arena.slots.size) (slot : Slot ε) :
    ({ arena with slots := arena.slots.push slot } : Arena ε ν).Linked limit listing := by
  intro side node
  obtain ⟨entries, lists, below, listed⟩ := linked side node
  refine ⟨entries, ⟨lists.chain.congr fun entry member => ?_, lists.last, lists.own⟩, below, listed⟩
  have within : entry.1 < arena.slots.size := Nat.lt_of_lt_of_le (below entry member) (inside side)
  simp only [read, Array.getElem?_push_lt within, Array.getElem?_eq_getElem within]

end Linking

section Refinement

variable [DecidableEq ν]

/-- What a plain graph lists at a node on one side. -/
def beside (graph : Graph ε ν) : Side → ν → List ε
  | .outgoing => graph.outgoing
  | .incoming => graph.incoming

variable [Edge ε ν]

/-- The arena has the edges and the nodes of a plain graph, and its chains are the lists of it. -/
structure Shows (arena : Arena ε ν) (graph : Graph ε ν) : Prop where
  order_eq : arena.order = graph.order
  edges_eq : arena.slots.map Slot.edge = graph.edges
  nodes_eq : arena.knownNodes = graph.knownNodes
  linked : arena.Linked (fun _ => arena.slots.size) (beside graph)

theorem Shows.empty (order : Option (ε → ε → Ordering)) :
    (Arena.empty order : Arena ε ν).Shows (.empty order) where
  order_eq := rfl
  edges_eq := Array.map_empty
  nodes_eq := rfl
  linked side node := by
    refine ⟨[], ⟨?_, ?_, by simp⟩, by simp, ?_⟩
    · cases side <;> exact .done
    · cases side <;> rfl
    · cases side <;> rfl

theorem listingBehind_both (graph : Graph ε ν) (edge : ε) :
    listingBehind graph.order edge .incoming (listingBehind graph.order edge .outgoing (beside graph)) =
      beside (graph.add edge) := by
  funext side node
  cases side with
  | outgoing => simp [listingBehind, beside, Side.node?, Graph.outgoing_add]
  | incoming => simp [listingBehind, beside, Side.node?, Graph.incoming_add]

/-- An edge can always be added, and gets the next place. -/
theorem Shows.add {arena : Arena ε ν} {graph : Graph ε ν} (shows : arena.Shows graph) (edge : ε) :
    ∃ behind, arena.add edge = some (arena.size, behind) ∧ behind.Shows (graph.add edge) := by
  have pushed := shows.linked.push (fun _ => Nat.le_refl _) ⟨edge, none, none⟩
  have new : ((arena.slots.push ⟨edge, none, none⟩).map Slot.edge)[arena.slots.size]? = some edge := by
    rw [Array.getElem?_map, Array.getElem?_push_size]
    rfl
  -- The edge enters on one side after the other, each time behind all places that are in use there.
  obtain ⟨left, leftEq, leftOrder, leftEdges, leftNodes, leftLinked⟩ := pushed.linkEnd .outgoing new
  obtain ⟨both, bothEq, bothOrder, bothEdges, bothNodes, bothLinked⟩ :=
    leftLinked.linkEnd .incoming (leftEdges ▸ new)
  have edges : both.slots.map Slot.edge = graph.edges.push edge := by
    rw [bothEdges, leftEdges, Array.map_push, shows.edges_eq]
  have size : both.slots.size = arena.slots.size + 1 := by
    rw [← Array.size_map (f := Slot.edge), bothEdges, leftEdges]
    simp
  refine ⟨both, ?_, ?_, edges, ?_, ?_⟩
  · have first : linkEnd { arena with slots := arena.slots.push ⟨edge, none, none⟩ } edge arena.slots.size
        .outgoing = some left := leftEq
    have second : left.linkEnd edge arena.slots.size .incoming = some both := bothEq
    simp [Arena.add, first, second, Arena.size]
  · rw [bothOrder, leftOrder, shows.order_eq]
    rfl
  · rw [Graph.knownNodes_add, ← shows.nodes_eq]
    rw [leftNodes] at bothNodes
    exact bothNodes
  · have limits : raise (raise (fun _ => arena.slots.size) .outgoing) .incoming = fun _ => both.slots.size := by
      funext side
      cases side <;> simp [raise, size]
    rw [leftOrder, shows.order_eq, listingBehind_both, limits] at bothLinked
    exact bothLinked

section Reading

variable {arena : Arena ε ν} {graph : Graph ε ν} (shows : arena.Shows graph)

include shows

theorem Shows.toList_eq : arena.toList = graph.toList := by
  rw [toList, ← Array.toList_map, shows.edges_eq, Graph.toList]

theorem Shows.edge?_eq (index : Nat) : arena.edge? index = graph.edge? index := by
  rw [edge?, ← Array.getElem?_map, shows.edges_eq, Graph.edge?]

theorem Shows.size_eq : arena.size = graph.toList.length := by
  rw [← shows.toList_eq, toList, List.length_map, Array.length_toList, size]

/-- Following a chain comes to an end, and gives what the plain graph lists. -/
theorem Shows.edgesAt_eq (side : Side) (node : ν) : arena.edgesAt side node = some (beside graph side node) := by
  obtain ⟨entries, lists, -, listed⟩ := shows.linked side node
  have first : (Keyed.find? node arena.nodes).bind (fun ends => ends.first side) =
      (arena.endsAt node).first side := by
    unfold endsAt Keyed.valueAt
    cases Keyed.find? node arena.nodes with
    | none => cases side <;> rfl
    | some ends => rfl
  rw [edgesAt, first]
  exact walk_eq_some_iff.mpr ⟨entries, lists.chain, listed⟩

theorem Shows.knows_eq (node : ν) : arena.knows node = graph.knows node := by
  have same : arena.knows node = true ↔ graph.knows node = true := by
    rw [Graph.knows_eq, ← shows.nodes_eq]
    exact Keyed.isSome_find?_iff
  exact Bool.eq_iff_iff.mpr same

end Reading

def perform (arena : Arena ε ν) : Graph.Change ε → Option (Arena ε ν)
  | .add edge => (arena.add edge).map Prod.snd
  | .clear => some arena.clear

/-- The arena behind a row of changes. -/
def after (order : Option (ε → ε → Ordering)) (changes : List (Graph.Change ε)) : Option (Arena ε ν) :=
  changes.foldlM perform (empty order)

/-- A change can always be made. -/
theorem Shows.perform {arena : Arena ε ν} {graph : Graph ε ν} (shows : arena.Shows graph)
    (change : Graph.Change ε) :
    ∃ behind, arena.perform change = some behind ∧ behind.Shows (graph.perform change) := by
  cases change with
  | add edge =>
      obtain ⟨behind, added, shown⟩ := shows.add edge
      exact ⟨behind, by rw [Arena.perform, added, Option.map_some], shown⟩
  | clear =>
      have cleared : arena.clear = .empty graph.order := by rw [clear, shows.order_eq, Arena.empty]
      exact ⟨arena.clear, rfl, cleared ▸ .empty graph.order⟩

theorem shows_after (order : Option (ε → ε → Ordering)) (changes : List (Graph.Change ε)) :
    ∃ arena : Arena ε ν, after order changes = some arena ∧ arena.Shows (Graph.after order changes) := by
  induction changes using List.reverseRecOn with
  | nil => exact ⟨_, rfl, .empty order⟩
  | append_singleton changes change ih =>
      obtain ⟨arena, reached, shows⟩ := ih
      obtain ⟨behind, changed, shown⟩ := shows.perform change
      refine ⟨behind, ?_, Graph.after_concat order changes change ▸ shown⟩
      rw [after] at reached
      simp [after, reached, changed]

/-- After any changes an arena has the edges since it was last cleared, in the order of their arrival, at the
places that they were given. It knows the nodes that they join. The chains at a node come to an end: they are
the lists of the plain graph, with each edge as often as it arrived. The edges are listed as they arrived if
there is no order, and stably sorted by an order. -/
theorem changes_list_edges (changes : List (Graph.Change ε)) :
    let edges := Graph.edgesAfter changes
    (∀ order : Option (ε → ε → Ordering), ∃ arena : Arena ε ν, after order changes = some arena ∧
      arena.toList = edges ∧ (∀ index, arena.edge? index = edges[index]?) ∧
      (∀ edge, ∃ behind, arena.add edge = some (edges.length, behind)) ∧
      (∀ node, arena.knows node = true ↔
        ∃ edge ∈ edges, Edge.source edge = some node ∨ Edge.target edge = some node) ∧
      (∀ node, node ∈ arena.knownNodes ↔ arena.knows node = true) ∧ arena.knownNodes.Nodup ∧
      ∀ node, ∃ leaves reaches, arena.edgesFrom node = some leaves ∧ arena.edgesTo node = some reaches ∧
        leaves = (Graph.after order changes).outgoing node ∧
        reaches = (Graph.after order changes).incoming node ∧
        leaves.Perm (Graph.leaving edges node) ∧ reaches.Perm (Graph.reaching edges node)) ∧
    (∀ arena : Arena ε ν, after none changes = some arena → ∀ node,
      arena.edgesFrom node = some (Graph.leaving edges node) ∧
      arena.edgesTo node = some (Graph.reaching edges node)) ∧
    ∀ (order : ε → ε → Ordering) [Std.TransCmp order] (arena : Arena ε ν),
      after (some order) changes = some arena → ∀ node,
      arena.edgesFrom node = some (Stable.sort order (Graph.leaving edges node)) ∧
      arena.edgesTo node = some (Stable.sort order (Graph.reaching edges node)) := by
  intro edges
  have shown (order : Option (ε → ε → Ordering)) : ∃ arena : Arena ε ν, after order changes = some arena ∧
      arena.Shows (Graph.after order changes) := shows_after order changes
  have plain (order : Option (ε → ε → Ordering)) : (Graph.after order changes : Graph ε ν).Shows order edges :=
    Graph.shows_after order changes
  -- Both are lists of the plain graph, which enters its edges one after the other.
  have listed (order : Option (ε → ε → Ordering)) (arena : Arena ε ν)
      (reached : after order changes = some arena) (node : ν) :
      arena.edgesFrom node = some (Graph.arrange order (Graph.leaving edges node)) ∧
        arena.edgesTo node = some (Graph.arrange order (Graph.reaching edges node)) := by
    obtain ⟨found, same, shows⟩ := shown order
    obtain rfl : arena = found := Option.some.inj (reached.symm.trans same)
    exact ⟨(shows.edgesAt_eq .outgoing node).trans (congrArg some ((plain order).outgoing node)),
      (shows.edgesAt_eq .incoming node).trans (congrArg some ((plain order).incoming node))⟩
  refine ⟨fun order => ?_, fun arena reached node => ?_, fun order _ arena reached node => ?_⟩
  · obtain ⟨arena, reached, shows⟩ := shown order
    have plain := plain order
    refine ⟨arena, reached, shows.toList_eq.trans plain.arrivals, fun index => ?_, fun edge => ?_, fun node => ?_,
      fun node => ?_, shows.nodes_eq ▸ plain.once, fun node => ?_⟩
    · rw [shows.edge?_eq, ← plain.arrivals, Graph.edge?, Graph.toList, Array.getElem?_toList]
    · obtain ⟨behind, added, -⟩ := shows.add edge
      exact ⟨behind, by rw [added, shows.size_eq, plain.arrivals]⟩
    · rw [shows.knows_eq, Graph.knows_eq, plain.known]
    · rw [shows.nodes_eq, shows.knows_eq, Graph.knows_eq]
    · refine ⟨_, _, shows.edgesAt_eq .outgoing node, shows.edgesAt_eq .incoming node, rfl, rfl, ?_, ?_⟩
      · rw [beside, plain.outgoing]
        exact Graph.arrange_perm order _
      · rw [beside, plain.incoming]
        exact Graph.arrange_perm order _
  · simpa [Graph.arrange_none] using listed none arena reached node
  · simpa [Graph.arrange_some] using listed (some order) arena reached node

/-- Behind a reference that is forgotten, four at one address: a jump to itself, one to an unknown
place, an entry and a jump elsewhere, by their priority. -/
theorem sample_changes_list_edges :
    let here : Address := ⟨.segment 0, 4⟩
    let loop : Reference := ⟨some here, some here, .conditionalJump, none⟩
    let lost : Reference := ⟨some here, none, .nearJump, none⟩
    let away : Reference := ⟨some here, some ⟨.segment 0, 9⟩, .nearJump, none⟩
    let changes : List (Graph.Change Reference) :=
      [.add away, .clear, .add loop, .add lost, .add (.toEntry here), .add away]
    Std.TransCmp Reference.comparePriority ∧
      ∃ arena : Arena Reference Address, after (some Reference.comparePriority) changes = some arena ∧
        arena.toList = [loop, lost, .toEntry here, away] ∧
        arena.edgesFrom here = some (Stable.sort Reference.comparePriority [loop, lost, away]) ∧
        arena.edgesFrom here = some [lost, away, loop] ∧
        arena.edgesTo here = some [.toEntry here, loop] := by
  intro here loop lost away changes
  have preorder : Std.TransCmp Reference.comparePriority :=
    inferInstanceAs (Std.TransCmp (compareOn fun reference : Reference => reference.kind.priority))
  obtain ⟨any, -, sorted⟩ := changes_list_edges changes
  obtain ⟨arena, reached, edges, -, -, -, -, -, listed⟩ := any (some Reference.comparePriority)
  obtain ⟨leaves, reaches, left, arrived, rfl, rfl, -, -⟩ := listed here
  refine ⟨preorder, arena, reached, edges, (sorted Reference.comparePriority arena reached here).1, left.trans ?_,
    arrived.trans ?_⟩
  · decide
  · decide

end Refinement

end RealMode.Arena
