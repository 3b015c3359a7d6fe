import StackMachine.Action
import StackMachine.Cell
import StackMachine.Demo
import StackMachine.Dump
import StackMachine.Event
import StackMachine.Fault
import StackMachine.Instruction
import StackMachine.Listing
import StackMachine.Machine
import StackMachine.Main
import StackMachine.Opcode
import StackMachine.Program
import StackMachine.Proofs.Action
import StackMachine.Proofs.Step
import StackMachine.Report
import StackMachine.Run
import StackMachine.Semantics
import StackMachine.Sink
import StackMachine.Stack
import StackMachine.Table
import StackMachine.Trace
import StackMachine.Variables
import StackMachine.Proofs.Decode
import StackMachine.Proofs.Invariant
import StackMachine.Proofs.Faults
import StackMachine.Proofs.Run
import StackMachine.Proofs.StepLimit
import StackMachine.Proofs.Listing
import StackMachine.Proofs.Simulation
import StackMachine.Proofs.Capacity
import StackMachine.Proofs.Output
import StackMachine.Proofs.Stepping
import StackMachine.Proofs.Boundaries
import StackMachine.Proofs.Decimal
import StackMachine.Proofs.Delivery
import StackMachine.Proofs.BoundedSink
import StackMachine.Proofs.ReadCells
import StackMachine.Proofs.Depths
import StackMachine.Proofs.Recurrence
import StackMachine.Proofs.Definedness
import StackMachine.Proofs.Frame
import StackMachine.Proofs.Aftermath
import StackMachine.Proofs.StraightLine
import StackMachine.Proofs.Record
import StackMachine.Proofs.History
import StackMachine.Proofs.Operators
import StackMachine.Proofs.Peephole
import StackMachine.Proofs.ForwardJumps
import StackMachine.Proofs.Layout
import StackMachine.Proofs.Messages
import StackMachine.Proofs.Snapshots
import StackMachine.Proofs.Readback
import StackMachine.Proofs.Concatenation
import StackMachine.Proofs.Countdown
import StackMachine.Proofs.ListingText
import StackMachine.Proofs.Conservation
