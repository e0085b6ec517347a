import Munch.CommandLine.Outcome

set_option autoImplicit false

/-! # The program -/

open Munch.CommandLine

/-- Run the command line, print what it comes to, and exit with its status. -/
def main (arguments : List String) : IO UInt32 := do
  let input ← if scansInput arguments then (← IO.getStdin).readBinToEnd else pure .empty
  let result := outcome arguments [.data input.toList]
  (← IO.getStdout).putStr result.output
  for complaint in result.complaints do
    (← IO.getStderr).putStrLn complaint
  return UInt32.ofNat result.status
