import FiniteDomain.Numeral

/-!
# Parameters

A parameter is a tuning knob that the environment may set.  Its value is fixed once: by the first
read, which takes the text of an environment variable or else a fallback, or by the program before
that.  A read whose fallback is needed and has no value faults and leaves the parameter open.
-/

namespace FiniteDomain

/-- What the environment says about a variable. -/
inductive Reading
  | absent
  | undecodable
  | text (s : String)
deriving DecidableEq, Repr

/-- A text of the environment that was passed over. -/
inductive ParameterWarning
  | unparsable (name text fallback : String)
  | undecodable (name fallback : String)
deriving DecidableEq, Repr

def ParameterWarning.message : ParameterWarning → String
  | unparsable name text fallback =>
    s!"[env_param] WARNING {name}: ignoring unparsable value \"{text}\", " ++
      s!"falling back to \"{fallback}\""
  | undecodable name fallback =>
    s!"[env_param] WARNING {name}: environment variable was not valid unicode, " ++
      s!"falling back to \"{fallback}\""

inductive ParameterFault
  | alreadyResolved (name : String)
  | unparsableFallback (name fallback : String)
deriving DecidableEq, Repr

def ParameterFault.message : ParameterFault → String
  | alreadyResolved name => s!"[env_param] {name} was already resolved and cannot be set"
  | unparsableFallback name fallback =>
    s!"[env_param] {name}: default \"{fallback}\" cannot be parsed"

structure Parameter (α : Type) where
  name : String
  /-- The text that counts if the environment has none that can be parsed. -/
  fallback : String
  parse : String → Option α
  value : Option α

namespace Parameter

variable {α : Type}

def unresolved (name fallback : String) (parse : String → Option α) : Parameter α :=
  ⟨name, fallback, parse, none⟩

/-- The value that a parameter takes if it is resolved now. -/
def resolve (p : Parameter α) (r : Reading) : Except ParameterFault α :=
  let parsed : Option α :=
    match r with
    | .text s => p.parse s
    | _ => none
  match parsed with
  | some a => .ok a
  | none =>
    match p.parse p.fallback with
    | some a => .ok a
    | none => .error (.unparsableFallback p.name p.fallback)

def get (p : Parameter α) (r : Reading) : Except ParameterFault (α × Parameter α) :=
  match p.value with
  | some a => .ok (a, p)
  | none =>
    match p.resolve r with
    | .ok a => .ok (a, { p with value := some a })
    | .error f => .error f

/-- What there is to say about the environment when the value is read. -/
def warning (p : Parameter α) (r : Reading) : Option ParameterWarning :=
  match p.value, r with
  | some _, _ => none
  | none, .absent => none
  | none, .undecodable => some (.undecodable p.name p.fallback)
  | none, .text s => if (p.parse s).isSome then none else some (.unparsable p.name s p.fallback)

/-- Fixes the value, or hands it back if one is fixed already. -/
def trySet (p : Parameter α) (a : α) : Except α (Parameter α) :=
  match p.value with
  | some _ => .error a
  | none => .ok { p with value := some a }

def set (p : Parameter α) (a : α) : Except ParameterFault (Parameter α) :=
  match p.trySet a with
  | .ok p => .ok p
  | .error _ => .error (.alreadyResolved p.name)

def parseBool (s : String) : Option Bool :=
  if s = "true" then some true else if s = "false" then some false else none

def parseInt (range : Numeral.Range) (s : String) : Option Int :=
  Numeral.read range s.toList

end Parameter

end FiniteDomain
