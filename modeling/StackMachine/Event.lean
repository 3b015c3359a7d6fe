import StackMachine.Dump
import StackMachine.Listing
import StackMachine.Run

/-! Diagnostic events: what a run can report about itself, how urgent each report is, and its
text and fields. -/

namespace StackMachine

inductive Level
  | trace
  | debug
  | info
  | warn
  | error
  deriving DecidableEq, Repr

def Level.name : Level → String
  | trace => "TRACE"
  | debug => "DEBUG"
  | info => "INFO"
  | warn => "WARN"
  | error => "ERROR"

inductive Event (W : Type := Sink)
  | listed (address : Nat) (i : Instruction)
  | undecodable (address : Nat) (c : Cause)
  | performing (address : Nat) (i : Instruction)
  | faulted (f : Fault)
  | snapshot (m : Machine W)
  | halted (c : Completion)
  | failed (f : Fault)
  deriving DecidableEq, Repr

namespace Event

variable {W : Type}

def level : Event W → Level
  | listed .. | undecodable .. | snapshot _ => .trace
  | performing .. => .debug
  | halted _ => .info
  | faulted _ => .warn
  | failed _ => .error

def message : Event W → String
  | listed a i => Listing.line a i.text
  | undecodable a c => Listing.line a ("<" ++ c.message ++ ">")
  | performing .. => "execute"
  | faulted _ => "faulted"
  | snapshot m => "\n" ++ m.dump
  | halted _ => "halted"
  | failed f => f.message

def fields : Event W → List (String × String)
  | performing a i => [("ip", a.repr), ("instruction", i.text)]
  | faulted f => [("fault", f.message)]
  | halted c => [("steps", c.steps.repr), ("reason", c.ending.name)]
  | _ => []

/-- The event on one line of a log. -/
def logLine (e : Event W) : String :=
  e.fields.foldl (fun s (k, v) => s ++ " " ++ k ++ "=" ++ v) (e.level.name ++ " " ++ e.message)

end Event

end StackMachine
