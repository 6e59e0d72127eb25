import ClosureLang.CommandLine.Run

/-!
# The program

Writes the transcript of a run on the two channels and leaves with its exit code.
-/

open ClosureLang in
def main (args : List String) : IO UInt32 := do
  let t := CommandLine.run args
  (← IO.getStdout).putStr t.stdout
  (← IO.getStderr).putStr t.stderr
  return t.code.toUInt32
