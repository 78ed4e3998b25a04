import Resumable.CommandLine

/-!
# The program

Writes the response of the command line. The times that the notices tell are those of the whole
run.
-/

open Resumable

/-- Runs the command line on the arguments of the program. -/
def main (args : List String) : IO UInt32 := do
  let before ← IO.monoNanosNow
  let response := CommandLine.run args
  IO.print response.output
  let after ← IO.monoNanosNow
  let elapsed := toString (after - before) ++ "ns"
  IO.eprint (String.join (response.notices.map (Notice.text elapsed)))
  return UInt32.ofNat response.exit
