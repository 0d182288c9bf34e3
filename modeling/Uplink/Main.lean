import Uplink.Simulation.Summary

/-!
# Command line

Reads settings from the standard input, runs the simulation and reports each device. An empty input
stands for the usual settings; `--slots N` replaces their number of slots.
-/

namespace Uplink

namespace Simulation

/-- The options of a command line. -/
structure Options where
  slots : Option Nat := none
deriving DecidableEq, Repr

namespace Options

/-- The options that arguments state; later ones replace earlier ones. -/
def ofArguments? : List String → Option Options
  | [] => some {}
  | ["--slots"] => none
  | "--slots" :: n :: rest => do
    let slots ← n.toNat?
    let options ← ofArguments? rest
    return { options with slots := options.slots <|> some slots }
  | _ => none

end Options

/-- The report of a run, or what prevents it. -/
def report (options : Options) (text : String) : Except String (List String) := do
  let s ← (Settings.load text).mapError (·.message)
  match (simulate s (options.slots.getD s.slots)).run with
  | .ok (.ok (_, devices)) => return devices.summary
  | .ok (.error e) => throw e.message
  | .error (.requirement text) => throw text
  | .error .arithmetic => throw "A machine integer left its range"
  | .error .bounds => throw "An index lies outside its buffer"

end Simulation

end Uplink

/-- The rest of a stream. -/
partial def readAll (input : IO.FS.Stream) (text : String) : IO String := do
  let line ← input.getLine
  if line.isEmpty then return text else readAll input (text ++ line)

open Uplink.Simulation in
/-- Run the simulation; the exit code tells whether it came to its end. -/
def main (arguments : List String) : IO UInt32 := do
  match Options.ofArguments? arguments with
  | none =>
    (← IO.getStderr).putStrLn "usage: uplink [--slots N] < SETTINGS"
    return 2
  | some options =>
    match report options (← readAll (← IO.getStdin) "") with
    | .ok lines =>
      for line in lines do
        IO.println line
      return 0
    | .error message =>
      (← IO.getStderr).putStrLn s!"Error: {message}"
      return 1
