import RealMode.Reference.Log

/-! Procedures and the data that belongs to them. -/

set_option autoImplicit false

namespace RealMode

/-- The distance over which a procedure is called. -/
inductive CallType where
  | near
  | far
  deriving DecidableEq, Repr

def CallType.text : CallType → String
  | .near => "near"
  | .far => "far"

def CallType.ofFar (far : Bool) : CallType := if far then .far else .near

def CallType.ofKind? : Reference.Kind → Option CallType
  | .nearCall => some .near
  | .farCall => some .far
  | _ => none

/-- A procedure with the places at which its blocks start. -/
structure Procedure where
  entry : Place
  address : Address
  name : String
  callType : CallType
  blocks : List Place
  deriving DecidableEq, Repr

def Procedure.text (procedure : Procedure) : String :=
  procedure.callType.text ++ " " ++ procedure.name ++ " @ " ++ procedure.entry.text

/-- Data at a place, with the entry of the procedure that uses it. -/
structure DataItem where
  place : Place
  location : Address
  size : Nat
  owner : Option Place
  deriving DecidableEq, Repr

/-- Procedures by ascending entry, and the calls between them. -/
structure ProcedureTable where
  procedures : List Procedure
  calls : ReferenceGraph

namespace ProcedureTable

def empty : ProcedureTable := ⟨[], .empty none⟩

def find? (table : ProcedureTable) (entry : Place) : Option Procedure :=
  table.procedures.find? (·.entry = entry)

def contains (table : ProcedureTable) (entry : Place) : Bool := (table.find? entry).isSome

/-- Enters a procedure at an entry that has none. -/
def add (table : ProcedureTable) (procedure : Procedure) : Attempt ProcedureTable :=
  if table.contains procedure.entry then
    .error (.procedureExists procedure.entry) table
  else
    .ok { table with
      procedures := table.procedures.takeWhile (·.entry < procedure.entry) ++
        procedure :: table.procedures.dropWhile (·.entry < procedure.entry) }

def named? (table : ProcedureTable) (name : String) : Option Procedure :=
  table.procedures.find? (·.name = name)

/-- The first procedure to which a block belongs. -/
def containing? (table : ProcedureTable) (block : Place) : Option Procedure :=
  table.procedures.find? (·.blocks.contains block)

def entries (table : ProcedureTable) : List Place := table.procedures.map Procedure.entry

/-- Changes the blocks of the procedures. -/
def mapBlocks (table : ProcedureTable) (blocks : Procedure → List Place) : ProcedureTable :=
  { table with
    procedures := table.procedures.map fun procedure => { procedure with blocks := blocks procedure } }

/-- Gives the procedure at an entry a list of blocks. -/
def setBlocks (table : ProcedureTable) (entry : Place) (blocks : List Place) : ProcedureTable :=
  table.mapBlocks fun procedure => if procedure.entry = entry then blocks else procedure.blocks

/-- Enters a call. -/
def addCall (table : ProcedureTable) (reference : Reference) : Attempt ProcedureTable :=
  if reference.kind.isCall then
    (table.calls.enter reference).within fun calls => { table with calls }
  else
    .error (.notACall reference) table

end ProcedureTable

end RealMode
