import StackMachine.Program
import StackMachine.Semantics

/-! A machine and its single step: look whether it still runs and whether an instruction is left,
then fetch one and perform it. A step reports the status that it leads to, or the fault; a machine
that halted or faulted stays as it is and reports that again (`step_of_halted`, `step_of_faulted`). -/

namespace StackMachine

structure Limits where
  stackCapacity : Nat := 100
  variableCount : Nat := 100
  /-- How many instructions may be performed. -/
  maxSteps : Option Nat := none
  deriving DecidableEq, Repr

inductive Ending
  | instruction
  | endOfProgram
  deriving DecidableEq, Repr

inductive Status
  | running
  | halted (e : Ending)
  | faulted (f : Fault)
  deriving DecidableEq, Repr

structure Machine (W : Type := Sink) where
  program : Program
  maxSteps : Option Nat
  status : Status
  pc : Nat
  /-- The number of instructions performed, one that then faulted included. -/
  steps : Nat
  store : Store W
  deriving DecidableEq, Repr

namespace Machine

variable {W : Type}

def start (p : Program) (l : Limits) (sink : W) : Machine W where
  program := p
  maxSteps := l.maxSteps
  status := .running
  pc := 0
  steps := 0
  store := ⟨.empty l.stackCapacity, .ofSize l.variableCount, sink⟩

def stack (m : Machine W) : List Cell := m.store.stack.toList

def vars (m : Machine W) : Variables := m.store.vars

def output [Writer W] (m : Machine W) : String := Writer.accepted m.store.sink

/-- The step limit comes before what stands at the current address. -/
def fetch (m : Machine W) : Except Cause Instruction :=
  match m.maxSteps with
  | none => m.program.decode m.pc
  | some limit => if limit ≤ m.steps then .error (.stepLimit limit) else m.program.decode m.pc

theorem fetch_eq_ok_iff {m : Machine W} {i : Instruction} :
    m.fetch = .ok i ↔ (∀ n, m.maxSteps = some n → m.steps < n) ∧ m.program.decode m.pc = .ok i := by
  unfold fetch
  cases m.maxSteps with
  | none => simp
  | some n => by_cases h : n ≤ m.steps <;> simp [h, Nat.not_le.1, Nat.not_lt.2]

theorem fetch_eq_error_iff {m : Machine W} {c : Cause} :
    m.fetch = .error c ↔
      (∃ n, m.maxSteps = some n ∧ n ≤ m.steps ∧ c = .stepLimit n) ∨
        (∀ n, m.maxSteps = some n → m.steps < n) ∧ m.program.decode m.pc = .error c := by
  unfold fetch
  cases m.maxSteps with
  | none => simp
  | some n => by_cases h : n ≤ m.steps <;> simp [h, Nat.not_le.1, Nat.not_lt.2, eq_comm]

theorem decode_of_fetch {m : Machine W} {i : Instruction} (h : m.fetch = .ok i) :
    m.program.decode m.pc = .ok i :=
  (fetch_eq_ok_iff.1 h).2

def advance (m : Machine W) (size : Nat) : Control → Machine W
  | .next => { m with pc := m.pc + size }
  | .jump t => { m with pc := t }
  | .halt => { m with status := .halted .instruction }

/-- Does the action of an instruction that takes up so many cells. On a fault the machine has
changed as far as the action got, but still counts as running where it was. -/
def perform (a : Action W Control) (size : Nat) : Machine W → Except Cause Unit × Machine W
  | ⟨program, maxSteps, status, pc, steps, store⟩ =>
    match a.run store with
    | .error c store => (.error c, ⟨program, maxSteps, status, pc, steps + 1, store⟩)
    | .ok control store =>
      (.ok (), advance ⟨program, maxSteps, status, pc, steps + 1, store⟩ size control)

theorem perform_eq (a : Action W Control) (size : Nat) (m : Machine W) :
    m.perform a size = match a.run m.store with
      | .error c store => (.error c, { m with steps := m.steps + 1, store })
      | .ok control store =>
        (.ok (), { m with steps := m.steps + 1, store }.advance size control) := rfl

variable [Writer W]

/-- Fetches an instruction and performs it. -/
def cycle (m : Machine W) : Except Cause Unit × Machine W :=
  match h : m.fetch with
  | .error c => (.error c, m)
  | .ok i =>
    have defined := Instruction.isSome_action?_iff.2 (Program.wellFormed_of_decode (decode_of_fetch h))
    m.perform ((i.action? m.program.size).get defined) i.size

def step (m : Machine W) : Except Fault Status × Machine W :=
  match m.status with
  | .halted e => (.ok (.halted e), m)
  | .faulted f => (.error f, m)
  | .running =>
    if m.pc < m.program.size then
      match m.cycle with
      | (.ok (), m') => (.ok m'.status, m')
      | (.error c, m') => (.error ⟨c, m'.pc⟩, { m' with status := .faulted ⟨c, m'.pc⟩ })
    else (.ok (.halted .endOfProgram), { m with status := .halted .endOfProgram })

def next (m : Machine W) : Machine W := m.step.2

/-- The machine after a number of steps, whatever they report. -/
def after (m : Machine W) : Nat → Machine W
  | 0 => m
  | n + 1 => (m.after n).next

theorem step_of_halted {m : Machine W} {e : Ending} (h : m.status = .halted e) :
    m.step = (.ok (.halted e), m) := by
  rw [step, h]

theorem step_of_faulted {m : Machine W} {f : Fault} (h : m.status = .faulted f) :
    m.step = (.error f, m) := by
  rw [step, h]

theorem cycle_of_fetch_error {m : Machine W} {c : Cause} (h : m.fetch = .error c) :
    m.cycle = (.error c, m) := by
  unfold cycle
  split
  · rename_i h'
    rw [h] at h'
    cases h'
    rfl
  · rename_i h'
    rw [h] at h'
    cases h'

theorem cycle_of_fetch_ok {m : Machine W} {i : Instruction} {a : Action W Control}
    (h : m.fetch = .ok i) (ha : i.action? m.program.size = some a) :
    m.cycle = m.perform a i.size := by
  unfold cycle
  split
  · rename_i h'
    rw [h] at h'
    cases h'
  · rename_i h'
    rw [h] at h'
    cases h'
    simp only [ha, Option.get_some]

end Machine

end StackMachine
