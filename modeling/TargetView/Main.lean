import TargetView.Command.Line

/-!
# The command-line tool

Passes the arguments on, writes the answer to the two output streams and exits with its status.
-/

open TargetView

/-- Answers one call of the tool. -/
def main (args : List String) : IO UInt32 := do
  let out := Command.run args
  (← IO.getStdout).putStr out.stdout
  (← IO.getStderr).putStr out.stderr
  return UInt32.ofNat out.exit
