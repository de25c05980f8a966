import FiniteDomain.Decimal.Fixed

/-!
# Statistics of a search
-/

namespace FiniteDomain

structure Counters where
  /-- Nodes whose exploration was attempted. -/
  nodes : Nat
  failures : Nat
  solutions : Nat
  decisions : Nat
  propagations : Nat
  retired : Nat
  /-- The greatest number of open nodes at a time. -/
  maxDepth : Nat
deriving DecidableEq, Repr

namespace Counters

def zero : Counters :=
  ⟨0, 0, 0, 0, 0, 0, 0⟩

def padLeft (width : Nat) (s : String) : String :=
  String.ofList (List.replicate (width - s.length) ' ') ++ s

def lines (c : Counters) : List String :=
  [ "nodes:        " ++ padLeft 12 s!"{c.nodes}",
    "failures:     " ++ padLeft 12 s!"{c.failures}",
    "solutions:    " ++ padLeft 12 s!"{c.solutions}",
    "decisions:    " ++ padLeft 12 s!"{c.decisions}",
    "propagations: " ++ padLeft 12 s!"{c.propagations}",
    "retired:      " ++ padLeft 12 s!"{c.retired}",
    "max depth:    " ++ padLeft 12 s!"{c.maxDepth}" ]

/-- A duration in seconds, as a double: the whole seconds and then the rest. -/
def seconds (nanoseconds : Nat) : Float :=
  (UInt64.ofNat (nanoseconds / 1000000000)).toFloat +
    (UInt64.ofNat (nanoseconds % 1000000000)).toFloat / 1000000000.0

def timeLine (nanoseconds : Nat) : String :=
  "solve time:   " ++ padLeft 11 (Decimal.renderFixed 3 (seconds nanoseconds)) ++ "s"

end Counters

end FiniteDomain
