import StackMachine.Trace

/-! What a finished run shows to the world as a program of its own: an exit status, the printed
text, and the events that are warnings or worse. -/

namespace StackMachine

structure Report where
  status : Nat
  stdout : String
  stderr : List String
  deriving DecidableEq, Repr

def Level.isUrgent : Level → Bool
  | warn | error => true
  | trace | debug | info => false

namespace Trace

variable {W : Type}

def status (t : Trace W) : Nat :=
  match t.result with
  | .ok _ => 0
  | .error f => f.cause.exitCode

/-- All events, with the failure that a fault means for the program. -/
def allEvents (t : Trace W) : List (Event W) :=
  match t.result with
  | .ok _ => t.events
  | .error f => t.events ++ [.failed f]

def report [Writer W] (t : Trace W) : Report where
  status := t.status
  stdout := t.machine.output
  stderr := (t.allEvents.filter (·.level.isUrgent)).map Event.logLine

end Trace

end StackMachine
