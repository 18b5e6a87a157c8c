import SymbolicLinalg.Pose

/-!
# Main — the command line

Writes the kernels of the pose to standard output, in the target named by the first argument.
-/

open SymbolicLinalg

def main (arguments : List String) : IO UInt32 := do
  let output := Pose.run arguments
  for line in output.lines do
    IO.println line
  if output.fault.isSome then
    IO.eprintln output.errorLine
  return output.exitCode
