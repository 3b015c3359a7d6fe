import StackMachine.Cell

/-! What can go wrong while a program runs. A fault is a cause together with the address of the
instruction that raised it. -/

namespace StackMachine

inductive Cause
  | stackUnderflow
  | stackOverflow
  | indexOutOfRange (index : Cell)
  | readBeforeAllocation (index : Nat)
  | divisionByZero
  | unknownInstruction (word : Cell)
  | outOfBounds (index : Int64)
  | stepLimit (limit : Nat)
  | output (detail : String)
  deriving DecidableEq, Repr

namespace Cause

def message : Cause → String
  | stackUnderflow => "stack underflow"
  | stackOverflow => "stack overflow"
  | indexOutOfRange w => "variable index " ++ w.text ++ " out of range"
  | readBeforeAllocation i => "variable " ++ i.repr ++ " read before it was allocated"
  | divisionByZero => "division by zero"
  | unknownInstruction w => "unknown instruction " ++ w.text
  | outOfBounds i => "program index " ++ i.toInt.repr ++ " out of bounds"
  | stepLimit n => "step limit of " ++ n.repr ++ " exceeded"
  | output detail => "failed to write output: " ++ detail

/-- The exit status of a program that ends by this cause: never zero, and one for each cause. -/
def exitCode : Cause → Nat
  | stackUnderflow => 2
  | stackOverflow => 3
  | indexOutOfRange _ => 4
  | readBeforeAllocation _ => 5
  | divisionByZero => 6
  | unknownInstruction _ => 7
  | outOfBounds _ => 8
  | stepLimit _ => 9
  | output _ => 10

end Cause

structure Fault where
  cause : Cause
  address : Nat
  deriving DecidableEq, Repr

namespace Fault

def message (f : Fault) : String := f.cause.message ++ " at ip " ++ f.address.repr

end Fault

instance decidableEqError {ε α : Type} [DecidableEq ε] (x : Except ε α) (e : ε) :
    Decidable (x = .error e) :=
  match x with
  | .error d => decidable_of_iff (d = e) ⟨congrArg Except.error, fun h => Except.error.inj h⟩
  | .ok _ => isFalse nofun

end StackMachine
