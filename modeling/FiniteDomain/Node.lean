import FiniteDomain.Archive
import FiniteDomain.Brancher
import FiniteDomain.Constraint
import FiniteDomain.Engine

/-!
# Search nodes

A node holds the domains of all variables together with the propagators and branchers that act on
them.  Nodes are values: an alternative committed in one does not show in another.
-/

namespace FiniteDomain

structure Node (P B : Type) where
  store : Store
  engine : Engine P
  branchers : Table B
  /-- Branchers before this one have no decision left, here and in the nodes below. -/
  firstActive : Nat

namespace Node

variable {P B : Type}

def empty : Node P B where
  store := Store.empty
  engine := Engine.empty
  branchers := #[]
  firstActive := 0

def isFailed (n : Node P B) : Bool :=
  n.store.isFailed

def newVar (n : Node P B) (lb ub : Int) : Var × Node P B :=
  let (x, store) := n.store.newVar lb ub
  (x, { n with store })

def newVars (n : Node P B) (lb ub : Int) : Nat → List Var × Node P B
  | 0 => ([], n)
  | count + 1 =>
    let (x, n) := n.newVar lb ub
    let (xs, n) := n.newVars lb ub count
    (x :: xs, n)

def update {α : Type} (n : Node P B) (u : Update α) :
    Except Fault (Except Wipeout α × Node P B) := do
  let (reply, store) ← u.apply n.store
  return (reply, { n with store })

/-- Posts a propagator, unless the node is failed. -/
def post [Propagator P] (n : Node P B) (p : P) : Option PropagatorId × Node P B :=
  if n.isFailed then
    (none, n)
  else
    let (id, engine) := n.engine.add p
    (some id, { n with engine })

/-- Adds a brancher, which is asked after those added before have no decision left; unless the node
is failed. -/
def branch (n : Node P B) (b : B) : Option BrancherId × Node P B :=
  if n.isFailed then
    (none, n)
  else
    (some n.branchers.nextKey, { n with branchers := n.branchers.push b })

def propagate [Propagator P] (n : Node P B) :
    Except Crash (Option Wipeout × List Event × Node P B) := do
  let result ← n.engine.propagate n.store
  return (result.failure, result.events, { n with engine := result.engine, store := result.store })

/-- Asks up to `count` branchers, from the first active one on. -/
def chooseAmong [Brancher B] : Nat → Node P B → Except Fault (Option Choice × Node P B)
  | 0, n => return (none, n)
  | count + 1, n => do
    let b ← n.branchers.fetch n.firstActive
    let (decisionLeft, b) ← Brancher.status b n.store
    if decisionLeft then
      let (c, b) ← Brancher.choose b n.firstActive n.store
      return (some c, { n with branchers := n.branchers.setIfInBounds n.firstActive b })
    else
      chooseAmong count
        { n with
          branchers := n.branchers.setIfInBounds n.firstActive b
          firstActive := n.firstActive + 1 }

/-- The next choice to explore, or none if no brancher has a decision left: the node is a solution.
Asked of a node that is not failed. -/
def choose [Brancher B] (n : Node P B) : Except Fault (Option Choice × Node P B) := do
  Fault.check (!n.isFailed)
  chooseAmong (n.branchers.size - n.firstActive) n

def commit [Brancher B] (n : Node P B) (c : Choice) (alternative : Nat) :
    Except Fault (Except Wipeout Unit × Node P B) := do
  Fault.check (alternative < c.alternatives)
  let b ← n.branchers.fetch c.brancher
  n.update (Brancher.commit b c alternative)

/-- Makes an archived choice again, with the branchers of this node. -/
def restore [Brancher B] (n : Node P B) (a : Archive) : Except Fault (Except ModelError Choice) :=
  match n.branchers[a.brancher]? with
  | none => .ok (.error (.unknownBrancher a.brancher))
  | some b => Brancher.restore b a.brancher a.pos a.min a.max

def describe [Brancher B] (n : Node P B) (c : Choice) (alternative : Nat) :
    Except Fault String := do
  Brancher.describe (← n.branchers.fetch c.brancher) c alternative

end Node

end FiniteDomain
