import RealMode.Collection.Graph

/-! Directed graphs whose adjacent edges are linked through one array.

The slot of an edge names the edge behind it among those that leave its source, and among those that
reach its target. A node keeps where both of its chains begin and end. Nothing in a slot says that a chain
ends, but a walk that is longer than the array has met one of its slots twice and goes round for ever, so
the length of the array bounds the walk. -/

set_option autoImplicit false

namespace RealMode

namespace Arena

/-- One of the two chains of edges at a node. -/
inductive Side where
  | outgoing
  | incoming
  deriving DecidableEq, Repr

/-- An edge, and the places of the edges behind it. -/
structure Slot (ε : Type) where
  edge : ε
  nextOut : Option Nat
  nextIn : Option Nat

/-- The places of the first and the last edge that leave a node and that reach it. -/
structure Ends where
  firstOut : Option Nat
  lastOut : Option Nat
  firstIn : Option Nat
  lastIn : Option Nat

variable {ε ν : Type}

def Side.node? [Edge ε ν] (side : Side) (edge : ε) : Option ν :=
  match side with
  | .outgoing => Edge.source edge
  | .incoming => Edge.target edge

def Slot.next (slot : Slot ε) : Side → Option Nat
  | .outgoing => slot.nextOut
  | .incoming => slot.nextIn

def Slot.withNext (slot : Slot ε) (next : Option Nat) : Side → Slot ε
  | .outgoing => { slot with nextOut := next }
  | .incoming => { slot with nextIn := next }

def Ends.empty : Ends := ⟨none, none, none, none⟩

def Ends.first (ends : Ends) : Side → Option Nat
  | .outgoing => ends.firstOut
  | .incoming => ends.firstIn

def Ends.last (ends : Ends) : Side → Option Nat
  | .outgoing => ends.lastOut
  | .incoming => ends.lastIn

def Ends.withBoth (ends : Ends) (first last : Option Nat) : Side → Ends
  | .outgoing => { ends with firstOut := first, lastOut := last }
  | .incoming => { ends with firstIn := first, lastIn := last }

/-- The ends of a chain into which the edge at a place was entered, behind and before what is given. -/
def Ends.enter (side : Side) (place : Nat) (behind next : Option Nat) (ends : Ends) : Ends :=
  ends.withBoth (if behind.isNone then some place else ends.first side)
    (if next.isNone then some place else ends.last side) side

def setNext (slots : Array (Slot ε)) (place : Nat) (next : Option Nat) (side : Side) :
    Option (Array (Slot ε)) :=
  if place < slots.size then some (slots.modify place fun slot => slot.withNext next side) else none

/-- Passes the edges of a chain that do not come after a new one, no more than `limit` of them. The last
of them is the result. -/
def lastBefore (order : ε → ε → Ordering) (slots : Array (Slot ε)) (side : Side) (edge : ε) :
    (limit : Nat) → (passed cursor : Option Nat) → Option (Option Nat)
  | _, passed, none => some passed
  | 0, _, some _ => none
  | limit + 1, passed, some place => do
      let slot ← slots[place]?
      if order slot.edge edge = .gt then some passed
      else lastBefore order slots side edge limit (some place) (slot.next side)

/-- The place behind which a new edge enters a chain, which is none for the front. -/
def placeBehind (order : Option (ε → ε → Ordering)) (slots : Array (Slot ε)) (side : Side) (edge : ε)
    (ends : Ends) : Option (Option Nat) :=
  match order, ends.last side with
  | _, none => some none
  | none, some last => some (some last)
  | some order, some _ => lastBefore order slots side edge slots.size none (ends.first side)

/-- The place that has been behind a given one, or at the front. -/
def placeNext (slots : Array (Slot ε)) (side : Side) (ends : Ends) (behind : Option Nat) :
    Option (Option Nat) :=
  match behind with
  | some passed => slots[passed]?.map (·.next side)
  | none => some (ends.first side)

/-- The edges of a chain from a place on, which are no more than `limit`. -/
def walk (slots : Array (Slot ε)) (side : Side) : (limit : Nat) → (cursor : Option Nat) → Option (List ε)
  | _, none => some []
  | 0, some _ => none
  | limit + 1, some place => do
      let slot ← slots[place]?
      let rest ← walk slots side limit (slot.next side)
      return slot.edge :: rest

end Arena

structure Arena (ε ν : Type) where
  order : Option (ε → ε → Ordering)
  slots : Array (Arena.Slot ε)
  nodes : List (ν × Arena.Ends)

namespace Arena

variable {ε ν : Type}

/-- The graph without edges, whose adjacent edges will keep the given order. -/
def empty (order : Option (ε → ε → Ordering)) : Arena ε ν := ⟨order, #[], []⟩

/-- All edges in the order of their arrival. -/
def toList (arena : Arena ε ν) : List ε := arena.slots.toList.map Slot.edge

def edge? (arena : Arena ε ν) (index : Nat) : Option ε := arena.slots[index]?.map Slot.edge

def knownNodes (arena : Arena ε ν) : List ν := arena.nodes.map Prod.fst

def size (arena : Arena ε ν) : Nat := arena.slots.size

def clear (arena : Arena ε ν) : Arena ε ν := { arena with slots := #[], nodes := [] }

def text (arena : Arena ε ν) : String :=
  Graph.wording arena.size arena.nodes.length arena.order.isSome

variable [DecidableEq ν]

def knows (arena : Arena ε ν) (node : ν) : Bool := (Keyed.find? node arena.nodes).isSome

/-- The edges at a node on one side. -/
def edgesAt (arena : Arena ε ν) (side : Side) (node : ν) : Option (List ε) :=
  walk arena.slots side arena.slots.size ((Keyed.find? node arena.nodes).bind fun ends => ends.first side)

/-- The edges that leave a node. -/
def edgesFrom (arena : Arena ε ν) (node : ν) : Option (List ε) := arena.edgesAt .outgoing node

/-- The edges that reach a node. -/
def edgesTo (arena : Arena ε ν) (node : ν) : Option (List ε) := arena.edgesAt .incoming node

/-- Enters the edge at a place into a chain of a node: at its end, or by the order. -/
def link (arena : Arena ε ν) (node : ν) (place : Nat) (side : Side) : Option (Arena ε ν) := do
  let ends := Keyed.valueAt .empty arena.nodes node
  let new ← arena.slots[place]?
  let behind ← placeBehind arena.order arena.slots side new.edge ends
  let next ← placeNext arena.slots side ends behind
  let led ← setNext arena.slots place next side
  let slots ← match behind with
    | some passed => setNext led passed (some place) side
    | none => some led
  let nodes := Keyed.update .empty node (Ends.enter side place behind next) arena.nodes
  return ⟨arena.order, slots, nodes⟩

variable [Edge ε ν]

/-- Enters the edge at a place on one side, if it has an end there. -/
def linkEnd (arena : Arena ε ν) (edge : ε) (place : Nat) (side : Side) : Option (Arena ε ν) :=
  match (side.node? edge : Option ν) with
  | some node => arena.link node place side
  | none => some arena

/-- Appends an edge. The place of it is a part of the result. -/
def add (arena : Arena ε ν) (edge : ε) : Option (Nat × Arena ε ν) := do
  let place := arena.slots.size
  let pushed := { arena with slots := arena.slots.push ⟨edge, none, none⟩ }
  let left ← pushed.linkEnd edge place .outgoing
  let linked ← left.linkEnd edge place .incoming
  return (place, linked)

end Arena

end RealMode
