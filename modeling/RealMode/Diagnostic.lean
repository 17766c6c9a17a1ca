import RealMode.Address

/-! Diagnostics: findings about the code under analysis. -/

set_option autoImplicit false

namespace RealMode

namespace Diagnostic

/-- The constructors stand in ascending order. -/
inductive Severity where
  | message
  | warning
  | error
  deriving DecidableEq, Ord, Repr

def Severity.text : Severity → String
  | .message => "message"
  | .warning => "warning"
  | .error => "error"

inductive Code where
  | ranIntoData
  | ranIntoCode
  | overlappingInstruction
  | addressWrapped
  | inconsistentCall
  | dynamicTarget
  | unresolvedTarget
  | brokenFixup
  | invalidInstruction
  | outOfImage
  | segmentOverlap
  deriving DecidableEq, Repr

def Code.severity : Code → Severity
  | .dynamicTarget => .message
  | .unresolvedTarget => .warning
  | _ => .error

def Code.text : Code → String
  | .ranIntoData => "RanIntoData"
  | .ranIntoCode => "RanIntoCode"
  | .overlappingInstruction => "OverlappingInstruction"
  | .addressWrapped => "AddressWrapped"
  | .inconsistentCall => "InconsistentCall"
  | .dynamicTarget => "DynamicTarget"
  | .unresolvedTarget => "UnresolvedTarget"
  | .brokenFixup => "BrokenFixup"
  | .invalidInstruction => "InvalidInstruction"
  | .outOfImage => "OutOfImage"
  | .segmentOverlap => "SegmentOverlap"

end Diagnostic

structure Diagnostic where
  location : Option Address
  code : Diagnostic.Code
  severity : Diagnostic.Severity
  message : String
  deriving DecidableEq, Repr

namespace Diagnostic

/-- A finding with the severity that its code implies. -/
def found (location : Option Address) (code : Code) (message : String) : Diagnostic :=
  ⟨location, code, code.severity, message⟩

def text (diagnostic : Diagnostic) : String :=
  let place :=
    match diagnostic.location with
    | some address => " at " ++ address.text
    | none => ""
  diagnostic.severity.text ++ " " ++ diagnostic.code.text ++ place ++ ": " ++ diagnostic.message

def withCode (diagnostics : List Diagnostic) (code : Code) : List Diagnostic :=
  diagnostics.filter (·.code = code)

def hasErrors (diagnostics : List Diagnostic) : Bool :=
  diagnostics.any (·.severity = .error)

end Diagnostic

end RealMode
