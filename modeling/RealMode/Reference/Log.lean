import RealMode.Collection.Graph
import RealMode.Attempt

/-! Collections of references, with observers that are told of each new one. -/

set_option autoImplicit false

namespace RealMode

instance : Edge Reference Address where
  source := Reference.source
  target := Reference.target

/-- References as a graph on addresses. -/
abbrev ReferenceGraph := Graph Reference Address

/-- Enters a reference of which one end is known. -/
def ReferenceGraph.enter (graph : ReferenceGraph) (reference : Reference) : Attempt ReferenceGraph :=
  if reference.hasEnd then .ok (graph.add reference) else .error .unattachedReference graph

/-- The references without a target, in the order of their arrival. -/
def ReferenceGraph.dynamic (graph : ReferenceGraph) : List Reference :=
  graph.toList.filter Reference.isDynamic

/-- A graph of references whose observers turn each new reference into a notice. -/
structure ReferenceLog (Notice : Type) where
  graph : ReferenceGraph
  observers : List (Reference → Notice)

namespace ReferenceLog

variable {Notice : Type}

def empty (order : Option (Reference → Reference → Ordering)) : ReferenceLog Notice :=
  ⟨.empty order, []⟩

def subscribe (log : ReferenceLog Notice) (observer : Reference → Notice) : ReferenceLog Notice :=
  { log with observers := log.observers ++ [observer] }

/-- Enters a reference. Beside the log there are the notices of the observers in the order of subscription. -/
def add (log : ReferenceLog Notice) (reference : Reference) :
    Attempt (ReferenceLog Notice) × List Notice :=
  match log.graph.enter reference with
  | .ok graph => (.ok { log with graph }, log.observers.map fun observer => observer reference)
  | .error fault graph => (.error fault { log with graph }, [])

/-- Forgets the references and keeps order and observers. -/
def clear (log : ReferenceLog Notice) : ReferenceLog Notice :=
  { log with graph := log.graph.clear }

def text (log : ReferenceLog Notice) : String :=
  "XRefCollection \x7b graph: " ++ log.graph.text ++ ", observers: " ++
    Numeral.decimal log.observers.length ++ " \x7d"

end ReferenceLog

end RealMode
