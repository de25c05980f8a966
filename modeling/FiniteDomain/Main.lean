import FiniteDomain.CommandLine.Session

/-!
# The program

The outer layer of the program: it reads the environment and the clock, and prints.
-/

namespace FiniteDomain.CommandLine

def readVariable (name : String) : IO Reading := do
  match ← IO.getEnv name with
  | some s => return .text s
  | none => return .absent

/-- The time since the start, as it stands before a line of the log. -/
def uptime (nanoseconds : Nat) : String :=
  let fraction := toString (nanoseconds % 1000000000)
  Counters.padLeft 4 (toString (nanoseconds / 1000000000)) ++ "." ++
    String.ofList (List.replicate (9 - fraction.length) '0') ++ fraction ++ "s"

def printOutput (start searchTime : Nat) : Output → IO Unit
  | .line s => IO.println s
  | .log entry => do
    let now ← IO.monoNanosNow
    IO.println s!"{uptime (now - start)} {entry.full}"
  | .solveTime => IO.println (Counters.timeLine searchTime)
  | .diagnostic s => IO.eprintln s

/-- Takes turns until the program ends.  The deadline and the time spent searching so far are in
nanoseconds. -/
partial def takeTurns (start : Nat) (deadline : Option Nat) (searchTime : Nat) (turn : Turn) :
    IO UInt32 := do
  turn.outputs.forM (printOutput start searchTime)
  (← IO.getStdout).flush
  match turn.stage with
  | .ended code => return UInt32.ofNat code
  | .running session =>
    let before ← IO.monoNanosNow
    let next := (session.expire (deadline.any (· ≤ before))).turn
    -- the stage is looked at so that the turn is over before the clock is read
    match next.stage with
    | .ended _ => takeTurns start deadline searchTime next
    | .running _ =>
      let after ← IO.monoNanosNow
      takeTurns start deadline (searchTime + (after - before)) next

end FiniteDomain.CommandLine

open FiniteDomain in
open FiniteDomain.CommandLine in
def main (words : List String) : IO UInt32 := do
  let start ← IO.monoNanosNow
  let environment : Environment := {
    minExtent := ← readVariable Slicing.minExtentParameter.name
    printStats := ← readVariable printStatsParameter.name
  }
  let timeout := (Options.read words).bind Options.timeout
  let deadline := timeout.map fun seconds => start + seconds * 1000000000
  takeTurns start deadline 0 (CommandLine.start words environment)
