import StackMachine.Sink
import StackMachine.Stack
import StackMachine.Variables

/-! What instructions work on, and the elementary actions on it. An action changes the store and
ends with a value or with the cause of a fault; a faulting action keeps the changes that it made
before. The actions that change variables or the sink take the store apart first, so that nothing
else holds on to the part that changes and it is changed in place. -/

namespace StackMachine

structure Store (W : Type := Sink) where
  stack : Stack
  vars : Variables
  sink : W
  deriving DecidableEq, Repr

abbrev Action (W : Type) := EStateM Cause (Store W)

namespace Action

variable {W : Type}

def push (v : Cell) : Action W Unit := fun s =>
  match s.stack.push v with
  | .ok stack => .ok () { s with stack }
  | .error c => .error c s

def pop : Action W Cell := fun s =>
  match s.stack.pop with
  | .ok (v, stack) => .ok v { s with stack }
  | .error c => .error c s

def peek : Action W Cell := fun s =>
  match s.stack.peek with
  | .ok v => .ok v s
  | .error c => .error c s

def swap : Action W Unit := fun s =>
  match s.stack.swap with
  | .ok stack => .ok () { s with stack }
  | .error c => .error c s

def load (i : Cell) : Action W Cell := fun s =>
  match s.vars.load i with
  | .ok v => .ok v s
  | .error c => .error c s

def store (i v : Cell) : Action W Unit := fun ⟨stack, vars, sink⟩ =>
  match vars.locate i with
  | .ok k => .ok () ⟨stack, vars.set k v, sink⟩
  | .error c => .error c ⟨stack, vars, sink⟩

def alloc (i : Cell) : Action W Unit := store i 0

/-- A printed cell: its decimal text on a line of its own. -/
def printed (v : Cell) : List Char := v.text.toList ++ ['\n']

theorem printed_eq (v : Cell) : printed v = v.toInt.repr.toList ++ ['\n'] := rfl

def print [Writer W] (v : Cell) : Action W Unit := fun ⟨stack, vars, sink⟩ =>
  match Writer.write sink (printed v) with
  | (.ok (), sink) => .ok () ⟨stack, vars, sink⟩
  | (.error detail, sink) => .error (.output detail) ⟨stack, vars, sink⟩

/-! What each action does to a store, through the component that it asks. -/

theorem run_push (v : Cell) (s : Store W) :
    (push v).run s = match s.stack.push v with
      | .ok stack => .ok () { s with stack }
      | .error c => .error c s := rfl

theorem run_pop (s : Store W) :
    pop.run s = match s.stack.pop with
      | .ok (v, stack) => .ok v { s with stack }
      | .error c => .error c s := rfl

theorem run_peek (s : Store W) :
    peek.run s = match s.stack.peek with
      | .ok v => .ok v s
      | .error c => .error c s := rfl

theorem run_swap (s : Store W) :
    swap.run s = match s.stack.swap with
      | .ok stack => .ok () { s with stack }
      | .error c => .error c s := rfl

theorem run_load (i : Cell) (s : Store W) :
    (load i).run s = match s.vars.load i with
      | .ok v => .ok v s
      | .error c => .error c s := rfl

theorem run_store (i v : Cell) (s : Store W) :
    (store i v).run s = match s.vars.store i v with
      | .ok vars => .ok () { s with vars }
      | .error c => .error c s := by
  obtain ⟨stack, vars, sink⟩ := s
  simp only [store, EStateM.run, Variables.store]
  cases vars.locate i <;> rfl

theorem run_print [Writer W] (v : Cell) (s : Store W) :
    (print v).run s = match Writer.write s.sink (printed v) with
      | (.ok (), sink) => .ok () { s with sink }
      | (.error detail, sink) => .error (.output detail) { s with sink } := rfl

/-! What an action did that ended with a value. -/

section ok

variable {α β : Type} {s t : Store W} {i v : Cell}

theorem run_bind_eq_ok_iff {x : Action W α} {f : α → Action W β} {b : β} :
    (x >>= f).run s = .ok b t ↔ ∃ a u, x.run s = .ok a u ∧ (f a).run u = .ok b t := by
  rw [EStateM.run_bind]
  cases x.run s <;> simp [and_assoc]

theorem run_push_eq_ok_iff :
    (push v).run s = .ok () t ↔ ∃ stack, s.stack.push v = .ok stack ∧ { s with stack } = t := by
  rw [run_push]
  cases s.stack.push v <;> simp

theorem run_pop_eq_ok_iff :
    pop.run s = .ok v t ↔ ∃ stack, s.stack.pop = .ok (v, stack) ∧ { s with stack } = t := by
  rw [run_pop]
  cases s.stack.pop <;> simp [Prod.ext_iff, and_assoc]

theorem run_load_eq_ok_iff :
    (load i).run s = .ok v t ↔ s.vars.load i = .ok v ∧ s = t := by
  rw [run_load]
  cases s.vars.load i <;> simp

theorem run_store_eq_ok_iff :
    (store i v).run s = .ok () t ↔ ∃ vars, s.vars.store i v = .ok vars ∧ { s with vars } = t := by
  rw [run_store]
  cases s.vars.store i v <;> simp

end ok

end Action

end StackMachine
