import StackMachine.Machine

/-! Runs: steps until the machine halts or faults. A run may go on for ever, so it is given a
number of steps; it has no answer only if it did not end within them, and more steps do not change
an answer (`runFor_of_le`). -/

namespace StackMachine

/-- What a run that halts leaves: how it ended, the steps performed, the stack bottom first. -/
structure Completion where
  ending : Ending
  steps : Nat
  stack : List Cell
  deriving DecidableEq, Repr

namespace Machine

variable {W : Type}

def completion (m : Machine W) (e : Ending) : Completion := ⟨e, m.steps, m.stack⟩

/-- A step limit ends every run at the step after it. Without one a run may take as many steps as
a 64-bit counter counts. -/
def stepBudget (m : Machine W) : Nat := m.maxSteps.elim UInt64.size (· + 1)

theorem stepBudget_pos (m : Machine W) : 0 < m.stepBudget := by
  unfold stepBudget
  cases m.maxSteps with
  | none => exact Nat.two_pow_pos 64
  | some n => exact n.succ_pos

variable [Writer W]

def runFor : Nat → Machine W → Option (Except Fault Completion × Machine W)
  | 0, _ => none
  | n + 1, m =>
    match m.step with
    | (.error f, m') => some (.error f, m')
    | (.ok (.faulted f), m') => some (.error f, m')
    | (.ok (.halted e), m') => some (.ok (m'.completion e), m')
    | (.ok .running, m') => runFor n m'

def run (m : Machine W) : Option (Except Fault Completion × Machine W) := m.runFor m.stepBudget

/-- A number of steps, whatever they report, with the last report. -/
def stepMany (m : Machine W) : Nat → Option (Except Fault Status) × Machine W
  | 0 => (none, m)
  | 1 =>
    let (r, m') := m.step
    (some r, m')
  | n + 2 => m.next.stepMany (n + 1)

theorem runFor_of_le {n k : Nat} {m : Machine W} {r : Except Fault Completion × Machine W}
    (h : m.runFor n = some r) (hk : n ≤ k) : m.runFor k = some r := by
  induction n generalizing m k with
  | zero => cases h
  | succ n ih =>
    obtain ⟨k, rfl⟩ := Nat.exists_eq_add_of_le' (Nat.lt_of_lt_of_le n.succ_pos hk)
    unfold runFor at h ⊢
    split at h
    · exact h
    · exact h
    · exact h
    · exact ih h (Nat.le_of_succ_le_succ hk)

theorem next_after (m : Machine W) (n : Nat) : m.next.after n = (m.after n).next := by
  induction n with
  | zero => rfl
  | succ n ih => rw [after, ih, after]

theorem snd_stepMany (m : Machine W) (n : Nat) : (m.stepMany n).2 = m.after n := by
  induction n generalizing m with
  | zero => rfl
  | succ n ih =>
    cases n with
    | zero => rfl
    | succ n =>
      rw [stepMany, ih, next_after]
      rfl

end Machine

end StackMachine
