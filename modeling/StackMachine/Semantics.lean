import StackMachine.Action
import StackMachine.Instruction

/-! The meaning of each instruction as an action on the store, which also says where execution
goes on. Exactly the well-formed instructions have one (`isSome_action?_iff`). -/

namespace StackMachine

inductive Control
  | next
  | jump (target : Nat)
  | halt
  deriving DecidableEq, Repr

namespace Action

variable {W : Type}

def binary (f : Cell → Cell → Action W Cell) : Action W Control := do
  let a ← pop
  let b ← pop
  push (← f a b)
  return .next

/-- The truncated quotient `1 / a` times `b`; so zero unless `a` is one or minus one. -/
def divide (a b : Cell) : Action W Cell :=
  if a = 0 then throw .divisionByZero else return 1 / a * b

/-- A jump may land on any of the `n` cells of a program and just past the last one. -/
def jump (n : Nat) (target : Cell) : Action W Control :=
  match target.index? with
  | none => throw (.outOfBounds target.toInt64)
  | some t => if t ≤ n then return .jump t else throw (.outOfBounds target.toInt64)

theorem run_binary_pure (f : Cell → Cell → Cell) (s : Store W) :
    (binary fun a b => pure (f a b)).run s = match s.stack.cells with
      | a :: b :: r => .ok .next { s with stack := ⟨s.stack.room + 1, f a b :: r⟩ }
      | cells => .error .stackUnderflow { s with stack := ⟨s.stack.room + cells.length, []⟩ } := by
  obtain ⟨⟨room, _ | ⟨a, _ | ⟨b, r⟩⟩⟩, vars, sink⟩ := s <;> rfl

theorem run_binary_divide (s : Store W) :
    (binary divide).run s = match s.stack.cells with
      | a :: b :: r =>
        if a = 0 then .error .divisionByZero { s with stack := ⟨s.stack.room + 2, r⟩ }
        else .ok .next { s with stack := ⟨s.stack.room + 1, 1 / a * b :: r⟩ }
      | cells => .error .stackUnderflow { s with stack := ⟨s.stack.room + cells.length, []⟩ } := by
  obtain ⟨⟨room, _ | ⟨a, _ | ⟨b, r⟩⟩⟩, vars, sink⟩ := s
  · rfl
  · rfl
  · by_cases h : a = 0
    · subst h
      rfl
    · have hd : (divide a b : Action W Cell) = pure (1 / a * b) := if_neg h
      change (divide a b >>= fun v => push v >>= fun _ => pure Control.next :
        Action W Control).run _ = _
      rw [hd]
      exact (if_neg h).symm

theorem run_jump (n : Nat) (t : Cell) (s : Store W) :
    (jump n t).run s = match t.index? with
      | none => .error (.outOfBounds t.toInt64) s
      | some k => if k ≤ n then .ok (.jump k) s else .error (.outOfBounds t.toInt64) s := by
  unfold jump
  cases t.index? with
  | none => rfl
  | some k =>
    dsimp only
    split <;> rfl

end Action

namespace Instruction

variable {W : Type} [Writer W]

open StackMachine.Action in
/-- The action of an instruction within a program of `n` cells. -/
def action? (n : Nat) : Instruction → Option (Action W Control)
  | withOperand .push v => some do
    push v
    return .next
  | withOperand .jmp t => some (jump n t)
  | withOperand .jz t => some do
    if (← pop) = 0 then jump n t else return .next
  | withOperand .jnz t => some do
    if (← pop) = 0 then return .next else jump n t
  | withOperand .alloc i => some do
    alloc i
    return .next
  | withOperand .load i => some do
    push (← load i)
    return .next
  | withOperand .store i => some do
    store i (← pop)
    return .next
  | plain .pop => some do
    let _ ← pop
    return .next
  | plain .add => some (binary fun a b => return a + b)
  | plain .sub => some (binary fun a b => return b - a)
  | plain .mul => some (binary fun a b => return a * b)
  | plain .div => some (binary divide)
  | plain .dup => some do
    push (← peek)
    return .next
  | plain .swap => some do
    swap
    return .next
  | plain .print => some do
    print (← peek)
    return .next
  | plain .eq => some (binary fun a b => return Cell.flag (a = b))
  | plain .lt => some (binary fun a b => return Cell.flag (b < a))
  | plain .gt => some (binary fun a b => return Cell.flag (a < b))
  | plain .halt => some (return .halt)
  | _ => none

theorem isSome_action? (n : Nat) (i : Instruction) :
    (i.action? (W := W) n).isSome = decide i.WellFormed := by
  cases i with
  | plain op => cases op <;> rfl
  | withOperand op v => cases op <;> rfl

theorem isSome_action?_iff {n : Nat} {i : Instruction} :
    (i.action? (W := W) n).isSome ↔ i.WellFormed := by
  rw [isSome_action?, decide_eq_true_iff]

end Instruction

end StackMachine
