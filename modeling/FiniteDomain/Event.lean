import FiniteDomain.Watches

/-!
# Events

What happens during a search, as data.  An event has a level; a reader who asks for a level sees the
events of that level and of the more severe ones.
-/

namespace FiniteDomain

/-- How much a reader wants to see, the least first. -/
inductive Level
  | error
  | warn
  | info
  | debug
  | trace
deriving DecidableEq, Repr

namespace Level

def rank : Level → Nat
  | error => 1
  | warn => 2
  | info => 3
  | debug => 4
  | trace => 5

/-- Does a reader who asks for `limit` see messages of this level? -/
def isShown (level limit : Level) : Bool :=
  level.rank ≤ limit.rank

def render : Level → String
  | error => "ERROR"
  | warn => "WARN"
  | info => "INFO"
  | debug => "DEBUG"
  | trace => "TRACE"

end Level

/-- A value in a log line: a text, or something that has been rendered already. -/
inductive LogValue
  | text (s : String)
  | shown (s : String)
deriving DecidableEq, Repr

def LogValue.plain : LogValue → String
  | text s => s
  | shown s => s

/-- Texts are put in quotes.  The texts that are logged hold no character to escape. -/
def LogValue.quoted : LogValue → String
  | text s => s!"\"{s}\""
  | shown s => s

/-- One line of a log: where it comes from, what it says, and the values that go with it. -/
structure LogLine where
  level : Level
  target : String
  message : String
  fields : List (String × LogValue)
deriving DecidableEq, Repr

namespace LogLine

def brief (line : LogLine) : String :=
  let fields := line.fields.map fun (name, value) => s!" {name}={value.plain}"
  s!"{line.level.render} {line.message}{String.join fields}"

def full (line : LogLine) : String :=
  let fields := line.fields.map fun (name, value) => s!" {name}={value.quoted}"
  s!"{line.level.render} {line.target}: {line.message}{String.join fields}"

end LogLine

inductive Event
  | retired (propagator : String) (id : PropagatorId)
  | pruningFailed (propagator : String) (failure : Wipeout)
  | nodeFailed (failure : Wipeout) (depth : Nat)
  | committed (alternative : String) (depth : Nat)
  | commitFailed (failure : Wipeout)
  | solved (objective : Option Int) (nodes : Nat)
  | exhausted (solutions : Nat)
  | interrupted (nodes : Nat)
deriving DecidableEq, Repr

namespace Event

def level : Event → Level
  | retired .. | pruningFailed .. | nodeFailed .. | committed .. | commitFailed .. => .trace
  | solved .. | exhausted .. | interrupted .. => .debug

def target : Event → String
  | retired .. | pruningFailed .. => "tessera::reasoners::cp"
  | _ => "tessera::solver::driver"

def message : Event → String
  | retired .. => "retired"
  | pruningFailed .. => "failure"
  | nodeFailed .. => "failed node"
  | committed alternative _ => s!"commit {alternative}"
  | commitFailed .. => "failed commit"
  | solved .. => "new solution"
  | exhausted .. => "search exhausted"
  | interrupted .. => "search interrupted"

def fields : Event → List (String × LogValue)
  | retired propagator id => [("propagator", .text propagator), ("id", .shown s!"PropagatorId({id})")]
  | pruningFailed propagator failure =>
    [("propagator", .text propagator), ("failure", .shown failure.message)]
  | nodeFailed failure depth => [("failure", .shown failure.message), ("depth", .shown s!"{depth}")]
  | committed _ depth => [("depth", .shown s!"{depth}")]
  | commitFailed failure => [("failure", .shown failure.message)]
  | solved (some objective) nodes =>
    [("objective", .shown s!"{objective}"), ("nodes", .shown s!"{nodes}")]
  | solved none nodes => [("nodes", .shown s!"{nodes}")]
  | exhausted solutions => [("solutions", .shown s!"{solutions}")]
  | interrupted nodes => [("nodes", .shown s!"{nodes}")]

def line (e : Event) : LogLine where
  level := e.level
  target := e.target
  message := e.message
  fields := e.fields

end Event

end FiniteDomain
