import FiniteDomain.Agenda
import FiniteDomain.Crash
import FiniteDomain.Propagator

/-!
# Engines

An engine owns the propagators of a search node and runs them to a common fixed point.  A propagator
waits for a run when it is posted and whenever a variable that it watches has changed.  One that
reports its constraint entailed is retired and never runs again, neither in this node nor in the
nodes made from it.
-/

namespace FiniteDomain

/-- A propagator that was posted.  A retired one keeps its place. -/
structure Posted (P : Type) where
  propagator : P
  isRetired : Bool
deriving DecidableEq, Repr

structure Engine (P : Type) where
  posted : Table (Posted P)
  watches : Watches
  active : Nat
  agenda : Agenda
  runs : Nat
  retirements : Nat

/-- What is left when an engine stops: the failure, if a domain would have become empty, and what
happened on the way. -/
structure Propagation (P : Type) where
  engine : Engine P
  store : Store
  failure : Option Wipeout
  events : List Event

namespace Engine

variable {P : Type}

def empty : Engine P where
  posted := #[]
  watches := Watches.empty
  active := 0
  agenda := Agenda.empty
  runs := 0
  retirements := 0

def isRetired (e : Engine P) (id : PropagatorId) : Bool :=
  match e.posted[id]? with
  | some entry => entry.isRetired
  | none => false

def add [Propagator P] (e : Engine P) (p : P) : PropagatorId × Engine P :=
  let id := e.posted.nextKey
  (id,
    { e with
      posted := e.posted.push ⟨p, false⟩
      watches := e.watches.addAll (Propagator.watched p) id
      active := e.active + 1
      agenda := e.agenda.grow.insert id })

/-- Enters those of the given propagators that are not retired, but not `origin`. -/
def wakeAll (origin : Option PropagatorId) (e : Engine P) :
    List PropagatorId → Except Fault (Engine P)
  | [] => .ok e
  | id :: rest =>
    if some id = origin then
      wakeAll origin e rest
    else
      match e.posted.fetch id with
      | .error f => .error f
      | .ok entry =>
        if entry.isRetired then
          wakeAll origin e rest
        else
          wakeAll origin { e with agenda := e.agenda.insert id } rest

/-- Wakes the propagators that watch a changed variable, in the order of the changes.  The
propagator `origin` made the changes and does not need to see them. -/
def wake (origin : Option PropagatorId) (e : Engine P) : List Var → Except Fault (Engine P)
  | [] => .ok e
  | x :: rest =>
    match e.wakeAll origin (e.watches.watchers x) with
    | .error f => .error f
    | .ok e => wake origin e rest

/-- Takes note that a propagator will never prune again. -/
def retire (e : Engine P) (id : PropagatorId) (entry : Posted P) : Engine P :=
  { e with
    posted := e.posted.setIfInBounds id { entry with isRetired := true }
    active := e.active - 1
    retirements := e.retirements + 1 }

def clearAgenda (e : Engine P) : Engine P :=
  { e with agenda := e.agenda.clear }

/-- Runs waiting propagators until none is left.  Changes made on the way wake others, and the
propagator that made them as well, unless one run of it is enough. -/
def settle [Propagator P] :
    Nat → Engine P → Store → List Event → Except Crash (Propagation P)
  | 0, _, _, events => .error ⟨.outOfFuel, events.reverse⟩
  | fuel + 1, e, s, events =>
    match e.agenda.next with
    | (none, agenda) =>
      if s.hasChanges then
        .error ⟨.assertion, events.reverse⟩
      else
        .ok ⟨{ e with agenda }, s, none, events.reverse⟩
    | (some id, agenda) =>
      let e := { e with agenda }
      match e.posted.fetch id with
      | .error f => .error ⟨f, events.reverse⟩
      | .ok entry =>
        if entry.isRetired then
          settle fuel e s events
        else
          let p := entry.propagator
          let e := { e with runs := e.runs + 1 }
          match (Propagator.propagate p).apply s with
          | .error f => .error ⟨f, events.reverse⟩
          | .ok (.error w, s) =>
            let events := .pruningFailed (Propagator.name p) w :: events
            .ok ⟨e.clearAgenda, s, some w, events.reverse⟩
          | .ok (.ok .stable, s) =>
            let origin := if Propagator.idempotent p then some id else none
            let (changes, s) := s.drain
            match e.wake origin changes with
            | .error f => .error ⟨f, events.reverse⟩
            | .ok e => settle fuel e s events
          | .ok (.ok .entailed, s) =>
            let events := .retired (Propagator.name p) id :: events
            let (changes, s) := s.drain
            match (e.retire id entry).wake (some id) changes with
            | .error f => .error ⟨f, events.reverse⟩
            | .ok e => settle fuel e s events

/-- Enough rounds for `settle`: between two effective narrowings, each of which lowers the weight of
the store, no propagator runs twice. -/
def settleFuel (e : Engine P) (s : Store) : Nat :=
  s.weight * (e.posted.size + 1) + e.agenda.waiting.length + 1

/-- Runs propagators to a fixed point, those first that watch a variable changed since the last
call.  On a failed store nothing runs and nothing is left waiting. -/
def propagate [Propagator P] (e : Engine P) (s : Store) : Except Crash (Propagation P) :=
  match s.failure with
  | some w => .ok ⟨e.clearAgenda, s, some w, []⟩
  | none =>
    let (changes, s) := s.drain
    match e.wake none changes with
    | .error f => .error ⟨f, []⟩
    | .ok e => settle (e.settleFuel s) e s []

end Engine

end FiniteDomain
