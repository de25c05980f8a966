import FiniteDomain.CommandLine.Options

/-!
# A run of the program

The program packs squares and prints each better packing as it is found.  A session is the program
between two steps of its search; the outer layer prints what a turn brings out, tells the session
when its time is up, and asks for the next turn.
-/

namespace FiniteDomain.CommandLine

structure Environment where
  minExtent : Reading
  printStats : Reading
deriving DecidableEq, Repr

def printStatsParameter : Parameter Bool :=
  .unresolved "TESSERA_PRINT_STATS" "false" Parameter.parseBool

inductive Output
  | line (s : String)
  | log (entry : LogLine)
  | solveTime
  | diagnostic (s : String)
deriving DecidableEq, Repr

structure Session where
  packing : Packing
  search : Search Constraint Strategy
  best : Option Solution
  environment : Environment

/-- Where a program is after a turn. -/
inductive Stage
  | running (s : Session)
  | ended (code : Nat)

structure Turn where
  outputs : List Output
  stage : Stage

def successCode : Nat := 0

def errorCode : Nat := 1

def usageCode : Nat := 2

def faultCode : Nat := 101

def Turn.ofFault (outputs : List Output) (f : Fault) : Turn :=
  ⟨outputs ++ [.diagnostic f.message], .ended faultCode⟩

/-- A parameter that the program declares itself has a fallback that can be parsed. -/
def readParameter {α : Type} (p : Parameter α) (r : Reading) (default : α) : α × List Output :=
  let value := match p.get r with
    | .ok (a, _) => a
    | .error _ => default
  (value, (p.warning r).toList.map fun w => .diagnostic w.message)

def builtLine (p : Packing) (d : Interval) : LogLine where
  level := .info
  target := "tessera_square"
  message := "model built"
  fields :=
    [ ("squares", .shown s!"{p.sizes.length}"), ("min_side", .shown s!"{d.lb}"),
      ("max_side", .shown s!"{d.ub}") ]

/-- A deadline so many seconds from now cannot be represented. -/
def timeoutLimit : Nat :=
  9223372036854775807

def launch (o : Options) (p : Packing) (environment : Environment) (outputs : List Output) : Turn :=
  match p.model.store.domain p.side with
  | .error f => .ofFault outputs f
  | .ok d =>
    let shown := if Level.info.isShown o.verbosity then [Output.log (builtLine p d)] else []
    let outputs := outputs ++ shown
    if o.timeout.any fun seconds => timeoutLimit ≤ seconds then
      .ofFault outputs .overflow
    else
      let budget : Budget := ⟨o.maxNodes, o.timeout = some 0⟩
      ⟨outputs, .running ⟨p, p.search budget o.verbosity, none, environment⟩⟩

def start (words : List String) (environment : Environment) : Turn :=
  match Options.read words with
  | none => ⟨[], .ended usageCode⟩
  | some o =>
    if o.size < 2 then
      ⟨[.diagnostic s!"Error: size must be greater than 1, got {o.size}"], .ended errorCode⟩
    else
      let (minExtent, warnings) :=
        readParameter Slicing.minExtentParameter environment.minExtent 5
      match Packing.build o.size o.formulation o.heuristic o.fraction minExtent with
      | .error f => .ofFault [] f
      | .ok (.error e) => ⟨[.diagnostic s!"Error: {e.message}"], .ended errorCode⟩
      | .ok (.ok p) =>
        -- the parameter is only read when a slicing is made
        launch o p environment (if o.heuristic.slices then warnings else [])

namespace Session

def verdict (s : Session) : Except Fault String := do
  match s.search.progress, s.best with
  | .exhausted, some sol => return s!"OPTIMAL: s = {← s.packing.sideOf sol}"
  | .exhausted, none => return "NO SOLUTION"
  | _, some sol => return s!"INTERRUPTED (best s = {← s.packing.sideOf sol})"
  | _, none => return "INTERRUPTED (no solution found)"

def finish (s : Session) : Turn :=
  match s.verdict with
  | .error f => .ofFault [] f
  | .ok verdict =>
    let (printStats, warnings) :=
      readParameter printStatsParameter s.environment.printStats false
    let stats :=
      if printStats then s.search.counters.lines.map Output.line ++ [.solveTime] else []
    ⟨.line verdict :: warnings ++ stats, .ended successCode⟩

def expire (s : Session) (isExpired : Bool) : Session :=
  { s with
    search :=
      { s.search with budget := { s.search.budget with isExpired } } }

def logged (e : Event) : Output :=
  .log e.line

def turn (s : Session) : Turn :=
  if s.search.progress ≠ .running then
    s.finish
  else
    match s.search.step with
    | .error c => .ofFault (c.events.map logged) c.fault
    | .ok outcome =>
      let logs := outcome.events.map logged
      let s := { s with search := outcome.search }
      match outcome.solution with
      | none => ⟨logs, .running s⟩
      | some sol =>
        match s.packing.format sol with
        | .error f => .ofFault logs f
        | .ok lines => ⟨logs ++ lines.map Output.line, .running { s with best := some sol }⟩

end Session

end FiniteDomain.CommandLine
