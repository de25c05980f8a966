import FiniteDomain.Table
import FiniteDomain.Interval

/-!
# Stores

A store holds the domain of every variable.  Bounds only shrink; every effective change is recorded
until it is drained, so that those who watch the variable can be woken.  An update that would leave
a domain empty is rejected and fails the store for good: the domain stays as it was, and the first
such update is the answer to every later one.
-/

namespace FiniteDomain

structure Var where
  index : Nat
deriving DecidableEq, Repr, Inhabited

theorem Var.index_inj {x y : Var} : x.index = y.index ↔ x = y := by
  cases x
  cases y
  simp

def Var.render (x : Var) : String :=
  s!"VarRef({x.index})"

/-- An update that would have left `var` with the empty domain `[lb, ub]`. -/
structure Wipeout where
  var : Var
  lb : Int
  ub : Int
deriving DecidableEq, Repr

def Wipeout.message (w : Wipeout) : String :=
  s!"empty domain for {w.var.render}: [{w.lb}, {w.ub}]"

structure Store where
  domains : Table Interval
  /-- Variables whose bounds changed since the last drain, oldest first, with repetitions. -/
  changes : Array Var
  failure : Option Wipeout
deriving DecidableEq, Repr

namespace Store

def empty : Store where
  domains := #[]
  changes := #[]
  failure := none

def isFailed (s : Store) : Bool :=
  s.failure.isSome

/-- Only the first failure is kept. -/
def fail (s : Store) (w : Wipeout) : Store :=
  match s.failure with
  | some _ => s
  | none => { s with failure := some w }

/-- A new variable with the domain `[lb, ub]`, cut to the values that a domain may hold.  An empty
interval, or one that has to be cut, fails the store. -/
def newVar (s : Store) (lb ub : Int) : Var × Store :=
  let x : Var := ⟨s.domains.size⟩
  let grown := { s with domains := s.domains.push ⟨max lb Word.minValue, min ub Word.maxValue⟩ }
  if ub < lb ∨ lb < Word.minValue ∨ Word.maxValue < ub then
    (x, grown.fail ⟨x, lb, ub⟩)
  else
    (x, grown)

def vars (s : Store) : List Var :=
  (List.range s.domains.size).map Var.mk

def domain (s : Store) (x : Var) : Except Fault Interval :=
  s.domains.fetch x.index

def lower (s : Store) (x : Var) : Except Fault Int := do
  return (← s.domain x).lb

def upper (s : Store) (x : Var) : Except Fault Int := do
  return (← s.domain x).ub

def isBound (s : Store) (x : Var) : Except Fault Bool := do
  return (← s.domain x).isBound

def value? (s : Store) (x : Var) : Except Fault (Option Int) := do
  return (← s.domain x).value?

/-- Intersects the domain of `x` with `[lb, ub]` and says whether it changed. -/
def narrow (s : Store) (x : Var) (lb ub : Int) : Except Fault (Except Wipeout Bool × Store) :=
  match s.failure with
  | some w => .ok (.error w, s)
  | none =>
    match s.domains.fetch x.index with
    | .error f => .error f
    | .ok current =>
      let next := current.inter ⟨lb, ub⟩
      if next.isEmpty then
        let w : Wipeout := ⟨x, next.lb, next.ub⟩
        .ok (.error w, { s with failure := some w })
      else if next = current then
        .ok (.ok false, s)
      else
        .ok (.ok true,
          { s with
            domains := s.domains.setIfInBounds x.index next
            changes := s.changes.push x })

/-- Fails the store because no value of `x` is left, though its bounds are not crossed.  The bounds
that are reported are crossed, unless the upper one is the greatest word. -/
def wipeOut (s : Store) (x : Var) : Except Fault (Wipeout × Store) := do
  let d ← s.domain x
  let w : Wipeout := ⟨x, min (d.ub + 1) Word.greatest, d.ub⟩
  return (w, s.fail w)

def hasChanges (s : Store) : Bool :=
  !s.changes.isEmpty

/-- The recorded changes, which are forgotten. -/
def drain (s : Store) : List Var × Store :=
  (s.changes.toList, { s with changes := #[] })

/-- Number of values in all domains together.  Every effective narrowing lowers it. -/
def weight (s : Store) : Nat :=
  s.domains.toList.foldr (fun d total => d.size + total) 0

theorem narrow_of_failed {s : Store} {w : Wipeout} (h : s.failure = some w)
    (x : Var) (lb ub : Int) : s.narrow x lb ub = .ok (.error w, s) := by
  simp [narrow, h]

@[simp]
theorem fail_failure_isSome (s : Store) (w : Wipeout) : (s.fail w).failure.isSome = true := by
  unfold fail
  split <;> simp_all

@[simp]
theorem domains_fail (s : Store) (w : Wipeout) : (s.fail w).domains = s.domains := by
  unfold fail
  split <;> rfl

end Store

end FiniteDomain
