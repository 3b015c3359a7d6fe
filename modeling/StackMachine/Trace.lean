import StackMachine.Event
import StackMachine.Run

/-! Traced runs: a run together with the events that it gives, in order. First comes the listing
of the program; then for each step the instruction, the fault if there is one, and a snapshot;
last, if the machine halts, how it did. -/

namespace StackMachine

structure Trace (W : Type := Sink) where
  events : List (Event W)
  result : Except Fault Completion
  machine : Machine W

variable {W : Type}

def Listing.events (l : Listing) : List (Event W) :=
  l.lines.map (fun (a, i) => .listed a i) ++ l.bad.toList.map fun (a, c) => .undecodable a c

namespace Machine

def closingEvents : Except Fault Completion → List (Event W)
  | .ok c => [.halted c]
  | .error _ => []

variable [Writer W]

/-- The events of the next step. The snapshot is taken before a fault takes effect. -/
def stepEvents (m : Machine W) : List (Event W) :=
  if m.status = .running ∧ m.pc < m.program.size then
    (match m.fetch with
      | .ok i => [.performing m.pc i]
      | .error _ => []) ++
    (match m.cycle.1 with
      | .ok () => []
      | .error c => [.faulted ⟨c, m.pc⟩]) ++
    [.snapshot m.cycle.2]
  else []

/-- The steps of a run, without the listing. -/
def traceFor : Nat → Machine W → Option (Trace W)
  | 0, _ => none
  | n + 1, m =>
    let ended (r : Except Fault Completion) (m' : Machine W) : Option (Trace W) :=
      some ⟨m.stepEvents ++ closingEvents r, r, m'⟩
    match m.step with
    | (.error f, m') => ended (.error f) m'
    | (.ok (.faulted f), m') => ended (.error f) m'
    | (.ok (.halted e), m') => ended (.ok (m'.completion e)) m'
    | (.ok .running, m') =>
      (traceFor n m').map fun t => { t with events := m.stepEvents ++ t.events }

def trace (m : Machine W) : Option (Trace W) :=
  (m.traceFor m.stepBudget).map fun t => { t with events := m.program.listing.events ++ t.events }

end Machine

end StackMachine
