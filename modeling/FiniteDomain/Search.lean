import FiniteDomain.Counters
import FiniteDomain.Node

/-!
# Search

Depth-first search over nodes, one step at a time.  A node is propagated to a fixed point and then
split by the first brancher with a decision left; alternatives are explored from left to right, each
in a copy of the node.  With an objective, every node explored after a solution has to improve on it,
so that each solution is strictly better than the one before.

A search is a value.  `step` explores one node, `next` steps until a solution is found or the search
is over; a search that ran out of fuel is continued later.
-/

namespace FiniteDomain

inductive Objective
  | minimize (x : Var)
  | maximize (x : Var)
deriving DecidableEq, Repr

namespace Objective

def var : Objective → Var
  | minimize x => x
  | maximize x => x

def bestIn (s : Store) : Objective → Except Fault Int
  | minimize x => s.lower x
  | maximize x => s.upper x

def improveOn (best : Int) : Objective → Update Bool
  | minimize x => do Update.setUpper x (← Update.read fun _ => Word.fit (best - 1))
  | maximize x => do Update.setLower x (← Update.read fun _ => Word.fit (best + 1))

end Objective

/-- What a search may spend.  It is interrupted as soon as one of the limits is reached. -/
structure Budget where
  maxNodes : Option Nat
  /-- Is the time used up? -/
  isExpired : Bool
deriving DecidableEq, Repr

def Budget.unlimited : Budget :=
  ⟨none, false⟩

inductive Progress
  | running
  | exhausted
  | interrupted
deriving DecidableEq, Repr

structure OpenNode (P B : Type) where
  node : Node P B
  choice : Choice
  next : Nat

structure Search (P B : Type) where
  root : Option (Node P B)
  /-- The open nodes, the deepest first. -/
  stack : List (OpenNode P B)
  objective : Option Objective
  /-- Objective value of the best solution so far. -/
  best : Option Int
  budget : Budget
  progress : Progress
  counters : Counters
  verbosity : Level

/-- The domains of a node that no brancher wants to split.  Only the variables that branchers decide
are sure to be bound. -/
structure Solution where
  store : Store
deriving DecidableEq, Repr

/-- The values of the given variables, if all of them are bound. -/
def Solution.values (sol : Solution) (xs : List Var) : Except Fault (Option (List Int)) :=
  match xs with
  | [] => .ok (some [])
  | x :: rest => do
    match ← sol.store.value? x with
    | none => return none
    | some v => return (← sol.values rest).map (v :: ·)

/-- What a step, or several, brought about. -/
structure Outcome (P B : Type) where
  search : Search P B
  solution : Option Solution
  events : List Event

/-- The computation with its log rewritten, whether it ends with an outcome or with a crash. -/
def Outcome.mapEvents {P B : Type} (f : List Event → List Event) :
    Except Crash (Outcome P B) → Except Crash (Outcome P B)
  | .ok o => .ok { o with events := f o.events }
  | .error c => .error { c with events := f c.events }

theorem Outcome.mapEvents_eq_ok_iff {P B : Type} {f : List Event → List Event}
    {x : Except Crash (Outcome P B)} {o : Outcome P B} :
    Outcome.mapEvents f x = .ok o ↔ ∃ p, x = .ok p ∧ o = { p with events := f p.events } := by
  cases x with
  | error c => simp [mapEvents]
  | ok p => simp [mapEvents, eq_comm]

namespace Search

variable {P B : Type}

def enumerate (root : Node P B) (budget : Budget) (verbosity : Level) : Search P B where
  root := some root
  stack := []
  objective := none
  best := none
  budget := budget
  progress := .running
  counters := .zero
  verbosity := verbosity

def optimize (root : Node P B) (objective : Objective) (budget : Budget) (verbosity : Level) :
    Search P B :=
  { enumerate root budget verbosity with objective := some objective }

def isLimitReached (s : Search P B) : Bool :=
  s.budget.isExpired ||
    match s.budget.maxNodes with
    | some limit => limit ≤ s.counters.nodes
    | none => false

def countFailure (s : Search P B) : Search P B :=
  { s with
    counters :=
      { s.counters with nodes := s.counters.nodes + 1, failures := s.counters.failures + 1 } }

/-- Asks a node to improve on the best solution so far, if there is one. -/
def constrain (s : Search P B) (n : Node P B) : Except Fault (Option Wipeout × Node P B) :=
  match s.objective, s.best with
  | some objective, some best => do
    match ← n.update (objective.improveOn best) with
    | (.error w, n) => return (some w, n)
    | (.ok _, n) => return (none, n)
  | _, _ => return (none, n)

def push (s : Search P B) (n : Node P B) (c : Choice) : Search P B :=
  let stack := ⟨n, c, 0⟩ :: s.stack
  { s with
    stack := stack
    counters :=
      { s.counters with
        nodes := s.counters.nodes + 1
        decisions := s.counters.decisions + 1
        maxDepth := max s.counters.maxDepth stack.length } }

def accept (s : Search P B) (n : Node P B) : Except Fault (Search P B × Event) := do
  let counters :=
    { s.counters with nodes := s.counters.nodes + 1, solutions := s.counters.solutions + 1 }
  match s.objective with
  | some objective =>
    let value ← objective.bestIn n.store
    return ({ s with counters, best := some value }, .solved (some value) counters.nodes)
  | none => return ({ s with counters }, .solved none counters.nodes)

def visit [Propagator P] [Brancher B] (s : Search P B) (n : Node P B) :
    Except Crash (Outcome P B) := do
  match ← Crash.after [] (s.constrain n) with
  | (some w, _) => return ⟨s.countFailure, none, [.nodeFailed w s.stack.length]⟩
  | (none, n) =>
    let (runs, retirements) := (n.engine.runs, n.engine.retirements)
    let (failure, events, n) ← n.propagate
    let s :=
      { s with
        counters :=
          { s.counters with
            propagations := s.counters.propagations + (n.engine.runs - runs)
            retired := s.counters.retired + (n.engine.retirements - retirements) } }
    match failure with
    | some w => return ⟨s.countFailure, none, events ++ [.nodeFailed w s.stack.length]⟩
    | none =>
      match ← Crash.after events n.choose with
      | (some c, n) => return ⟨s.push n c, none, events⟩
      | (none, n) =>
        let (s, event) ← Crash.after events (s.accept n)
        return ⟨s, some ⟨n.store⟩, events ++ [event]⟩

def descend [Propagator P] [Brancher B] (s : Search P B) (top : OpenNode P B)
    (below : List (OpenNode P B)) : Except Crash (Outcome P B) := do
  let alternative := top.next
  let stack :=
    if alternative + 1 < top.choice.alternatives then
      { top with next := alternative + 1 } :: below
    else
      below
  let s := { s with stack }
  let taken ←
    if s.verbosity = .trace then
      let description ← Crash.after [] (top.node.describe top.choice alternative)
      pure [Event.committed description stack.length]
    else
      pure []
  match ← Crash.after taken (top.node.commit top.choice alternative) with
  | (.error w, _) => return ⟨s.countFailure, none, taken ++ [.commitFailed w]⟩
  | (.ok (), n) => Outcome.mapEvents (taken ++ ·) (s.visit n)

/-- Explores one node, if the budget allows it: the root first, then the next alternative of the
deepest open node.  A search that is over stays as it is. -/
def explore [Propagator P] [Brancher B] (s : Search P B) : Except Crash (Outcome P B) :=
  if s.progress ≠ .running then
    .ok ⟨s, none, []⟩
  else if s.isLimitReached then
    .ok ⟨{ s with progress := .interrupted }, none, [.interrupted s.counters.nodes]⟩
  else
    match s.root, s.stack with
    | some root, _ => { s with root := none }.visit root
    | none, [] => .ok ⟨{ s with progress := .exhausted }, none, [.exhausted s.counters.solutions]⟩
    | none, top :: below => s.descend top below

def step [Propagator P] [Brancher B] (s : Search P B) : Except Crash (Outcome P B) :=
  Outcome.mapEvents (List.filter fun e => e.level.isShown s.verbosity) s.explore

/-- Steps until there is a solution, or the search is over, or the fuel is used up.  The events of
earlier steps are given. -/
def run [Propagator P] [Brancher B] :
    Nat → Array Event → Search P B → Except Crash (Outcome P B)
  | 0, events, s => .ok ⟨s, none, events.toList⟩
  | fuel + 1, events, s =>
    if s.progress ≠ .running then
      .ok ⟨s, none, events.toList⟩
    else
      match s.step with
      | .error c => .error { c with events := events.toList ++ c.events }
      | .ok outcome =>
        let events := events ++ outcome.events
        match outcome.solution with
        | some sol => .ok ⟨outcome.search, some sol, events.toList⟩
        | none => run fuel events outcome.search

/-- The next solution, if it is found within the fuel.  Without a solution the search is over, or is
still running and can be continued. -/
def next [Propagator P] [Brancher B] (fuel : Nat) (s : Search P B) :
    Except Crash (Outcome P B) :=
  s.run fuel #[]

/-- Asks for one solution after the other, at most so many times, until none is found.  The solution
found before is given. -/
def lastOf [Propagator P] [Brancher B] (fuel : Nat) :
    Nat → Option Solution → Search P B → Except Crash (Outcome P B)
  | 0, found, s => .ok ⟨s, found, []⟩
  | calls + 1, found, s => do
    let outcome ← s.next fuel
    match outcome.solution with
    | none => return { outcome with solution := found }
    | some sol =>
      Outcome.mapEvents (outcome.events ++ ·) (lastOf fuel calls (some sol) outcome.search)

/-- The last solution, consuming all those before it.  With an objective this is the best one, if the
search comes to its end within the fuel. -/
def last [Propagator P] [Brancher B] (fuel : Nat) (s : Search P B) :
    Except Crash (Outcome P B) :=
  s.lastOf fuel fuel none

end Search

end FiniteDomain
