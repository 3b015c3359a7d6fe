import StackMachine.Fault
import StackMachine.Instruction

/-! A program is a row of cells. Nothing but position tells an opcode from an operand, so
`decode` reads an instruction at any address; what it reads is always well formed and lies within
the program. -/

namespace StackMachine

abbrev Program := Array Cell

namespace Program

def assemble (is : List Instruction) : Program := (is.flatMap Instruction.cells).toArray

/-- The instruction whose cells start at an address. -/
def decode (p : Program) (pc : Nat) : Except Cause Instruction :=
  match p[pc]? with
  | none => .error (.outOfBounds (Int64.ofNat pc))
  | some w =>
    match Opcode.ofCell? w with
    | none => .error (.unknownInstruction w)
    | some op =>
      if op.arity = 0 then .ok (.plain op)
      else
        match p[pc + 1]? with
        | none => .error (.outOfBounds (Int64.ofNat (pc + 1)))
        | some v => .ok (.withOperand op v)

theorem wellFormed_of_decode {p : Program} {pc : Nat} {i : Instruction} (h : p.decode pc = .ok i) :
    i.WellFormed := by
  unfold decode at h
  split at h
  · cases h
  · split at h
    · cases h
    · rename_i op _
      split at h
      · cases h
        assumption
      · rename_i h0
        split at h
        · cases h
        · cases h
          have := op.arity_le_one
          show op.arity = 1
          omega

theorem add_size_le_of_decode {p : Program} {pc : Nat} {i : Instruction} (h : p.decode pc = .ok i) :
    pc + i.size ≤ p.size := by
  unfold decode at h
  split at h
  · cases h
  · rename_i w hw
    have hpc := (Array.getElem?_eq_some_iff.1 hw).1
    split at h
    · cases h
    · rename_i op _
      have := op.arity_le_one
      split at h
      · cases h
        simp only [Instruction.size, Instruction.opcode, Opcode.size]
        omega
      · split at h
        · cases h
        · rename_i v hv
          have := (Array.getElem?_eq_some_iff.1 hv).1
          cases h
          simp only [Instruction.size, Instruction.opcode, Opcode.size]
          omega

theorem lt_size_of_decode {p : Program} {pc : Nat} {i : Instruction} (h : p.decode pc = .ok i) :
    pc < p.size :=
  Nat.lt_of_lt_of_le (Nat.lt_add_of_pos_right i.size_pos) (add_size_le_of_decode h)

end Program

end StackMachine
