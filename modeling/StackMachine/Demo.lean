import StackMachine.Report

/-! A small program that adds two variables and prints the sum. -/

namespace StackMachine.Demo

def instructions : List Instruction :=
  [.withOperand .alloc 0, .withOperand .alloc 1,
    .withOperand .push 2, .withOperand .store 0,
    .withOperand .push 3, .withOperand .store 1,
    .withOperand .load 0, .withOperand .load 1,
    .plain .add, .plain .print, .plain .halt]

def program : Program := Program.assemble instructions

def limits : Limits := {}

/-- What running the program into a sink shows. -/
def report? (sink : Sink) : Option Report :=
  (Machine.start program limits sink).trace.map Trace.report

end StackMachine.Demo
