import StackMachine.Demo

/-! Runs the demo program: its text goes to standard output, its log to standard error. If
standard output takes nothing, the program is run against a sink that refuses for that reason. -/

namespace StackMachine.Demo

def refusalOf : IO.Error → String
  | .resourceExhausted _ code details => details ++ " (os error " ++ code.toNat.repr ++ ")"
  | e => e.toString

def finish (r : Report) : IO UInt32 := do
  for l in r.stderr do
    IO.eprintln l
  return r.status.toUInt32

end StackMachine.Demo

open StackMachine in
def main : IO UInt32 := do
  let some r := Demo.report? .unbounded | return 1
  let out ← IO.getStdout
  try
    out.putStr r.stdout
    out.flush
    Demo.finish r
  catch e =>
    let some refused := Demo.report? (.refusing (Demo.refusalOf e)) | return 1
    Demo.finish refused
