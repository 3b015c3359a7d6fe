import StackMachine.Machine
import StackMachine.Table

/-! The dump of a machine: a heading with address, step count and status, then the stack and the
variables as two tables side by side. The top of the stack is marked. -/

namespace StackMachine

def Ending.name : Ending → String
  | .instruction => "Instruction"
  | .endOfProgram => "EndOfProgram"

def Status.text : Status → String
  | .running => "Running."
  | .halted e => "Halted (" ++ e.name ++ ")."
  | .faulted f => "Faulted: " ++ f.message ++ "."

namespace Dump

/-- A row of the register with the given letter and index. -/
def row (letter : Char) (marked : Bool) (index : Nat) (contents : String) : Block × Block :=
  let label := [letter, '['] ++ index.repr.toList ++ "] =".toList
  ([if marked then "* --> ".toList ++ label else label], [contents.toList])

def register (rows : List (Block × Block)) : Table :=
  ⟨.fitting "Address" .right (rows.map (·.1)), .fitting "Contents" .left (rows.map (·.2)), rows⟩

def stackTable (cells : List Cell) : Table :=
  let depth := cells.length
  register (cells.zipIdx.map fun (v, i) => row 'S' (i + 1 = depth) i v.text)

def variableTable (slots : List (Option Cell)) : Table :=
  register (slots.zipIdx.map fun (v, i) => row 'M' false i (Variables.slotText v))

def table (cells : List Cell) (slots : List (Option Cell)) : Table :=
  let s := (stackTable cells).lines
  let m := (variableTable slots).lines
  ⟨.fitting "Stack" .left [s], .fitting "Variables" .left [m], [(s, m)]⟩

def heading (pc steps : Nat) (status : Status) : String :=
  "IP: " ++ pc.repr ++ "\tSteps: " ++ steps.repr ++ "\t" ++ status.text ++ "\n"

end Dump

def Machine.dump {W : Type} (m : Machine W) : String :=
  Dump.heading m.pc m.steps m.status ++ (Dump.table m.stack m.vars.slots.toList).lines.text

end StackMachine
