import FiniteDomain.Brancher

/-!
# Selection of a variable

Heuristics that pick one of the undecided variables of a brancher.  Of equally good ones the first
is picked.
-/

namespace FiniteDomain

inductive Selection
  | first
  | smallestDomain
  | smallestMin
  | largestMax
deriving DecidableEq, Repr

namespace Selection

/-- What a heuristic compares: the less, the better. -/
def cost (d : Interval) : Selection → Int
  | first => 0
  | smallestDomain => d.size
  | smallestMin => d.lb
  | largestMax => -d.ub

/-- The position with the least cost among candidates, and of several the first. -/
def cheapest : List (Nat × Int) → Option (Nat × Int)
  | [] => none
  | candidate :: rest =>
    match cheapest rest with
    | none => some candidate
    | some other => if other.2 < candidate.2 then some other else some candidate

/-- The undecided positions among the `count` from `start` on, with their costs. -/
def candidates (selection : Selection) (vars : Table Var) (s : Store)
    (undecided : Nat → Except Fault Bool) : Nat → Nat → Except Fault (List (Nat × Int))
  | 0, _ => return []
  | count + 1, start => do
    if ← undecided start then
      let d ← s.domain (← vars.fetch start)
      return (start, selection.cost d) :: (← selection.candidates vars s undecided count (start + 1))
    else
      selection.candidates vars s undecided count (start + 1)

/-- The position that is picked, if any is undecided.  The first heuristic looks no further than its
answer. -/
def pick (selection : Selection) (vars : Table Var) (start : Nat) (s : Store)
    (undecided : Nat → Except Fault Bool) : Except Fault (Option Nat) := do
  match selection with
  | first =>
    let i ← Brancher.firstUndecided undecided (vars.size - start) start
    return if i < vars.size then some i else none
  | _ =>
    let found ← selection.candidates vars s undecided (vars.size - start) start
    return (cheapest found).map Prod.fst

end Selection

end FiniteDomain
