import StackMachine.Opcode

/-! Instructions and their cells. An instruction may be written with or without an operand
whatever its opcode takes; `WellFormed` singles out those that agree with their opcode, and only
these are ever decoded. -/

namespace StackMachine

inductive Instruction
  | plain (op : Opcode)
  | withOperand (op : Opcode) (operand : Cell)
  deriving DecidableEq, Repr

namespace Instruction

def opcode : Instruction → Opcode
  | plain op => op
  | withOperand op _ => op

def operand? : Instruction → Option Cell
  | plain _ => none
  | withOperand _ v => some v

/-- The number of cells that the opcode calls for, which is how far execution moves on. -/
def size (i : Instruction) : Nat := i.opcode.size

def cells : Instruction → List Cell
  | plain op => [op.cell]
  | withOperand op v => [op.cell, v]

def text : Instruction → String
  | plain op => op.mnemonic
  | withOperand op v => op.mnemonic ++ " " ++ v.text

/-- The operand is there exactly if the opcode takes one. -/
def WellFormed : Instruction → Prop
  | plain op => op.arity = 0
  | withOperand op _ => op.arity = 1

instance : DecidablePred WellFormed
  | plain op => inferInstanceAs (Decidable (op.arity = 0))
  | withOperand op _ => inferInstanceAs (Decidable (op.arity = 1))

theorem size_pos (i : Instruction) : 0 < i.size := i.opcode.size_pos

theorem WellFormed.length_cells {i : Instruction} (h : i.WellFormed) : i.cells.length = i.size := by
  cases i <;> simp_all [WellFormed, cells, size, opcode, Opcode.size]

end Instruction

end StackMachine
