import RealMode.Fault

/-! Settings of an analysis. -/

set_option autoImplicit false

namespace RealMode

structure Settings where
  /-- The number of tasks that one search for blocks works through at most. -/
  maxTasks : Nat := 1000000
  /-- The number of instructions beyond which no more are decoded. -/
  maxInstructions : Nat := 1000000
  /-- Whether jumps through a table behind them are followed. -/
  jumpTables : Bool := true
  /-- Whether the path of a conditional jump that is not taken is recorded as a reference. -/
  recordFallThrough : Bool := true
  /-- Whether a full analysis looks for overlapping segments. -/
  checkSegments : Bool := true
  deriving DecidableEq, Repr

/-- Settings under which an analysis can do something. -/
def Settings.validate (settings : Settings) : Except Fault Unit :=
  if settings.maxTasks = 0 then .error (.zeroLimit "max_worklist_items")
  else if settings.maxInstructions = 0 then .error (.zeroLimit "max_instructions")
  else .ok ()

end RealMode
