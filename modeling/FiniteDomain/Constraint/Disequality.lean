import FiniteDomain.Propagator

/-!
# Disequality

`a ≠ b`, propagated on bounds: once one side has a value, that value is cut off the other side where
it is a bound.  A value strictly inside a domain is kept.
-/

namespace FiniteDomain

/-- The constraint `a ≠ b`. -/
structure Disequality where
  a : Var
  b : Var
deriving DecidableEq, Repr

namespace Disequality

def Holds (c : Disequality) (value : Var → Int) : Prop :=
  value c.a ≠ value c.b

/-- Cuts the value of `fixed`, if it has one, off the bounds of `other`. -/
def prune (fixed other : Var) : Update Unit := do
  match ← Update.read (·.value? fixed) with
  | none => return ()
  | some v =>
    if (← Update.read (·.lower other)) = v then
      discard <| Update.setLower other (← Update.read fun _ => Word.fit (v + 1))
    if (← Update.read (·.upper other)) = v then
      discard <| Update.setUpper other (← Update.read fun _ => Word.fit (v - 1))

def isEntailed (c : Disequality) (s : Store) : Except Fault Bool := do
  let a ← s.domain c.a
  let b ← s.domain c.b
  return a.ub < b.lb || b.ub < a.lb

def propagate (c : Disequality) : Update Verdict := do
  prune c.a c.b
  prune c.b c.a
  if ← Update.read c.isEntailed then
    return .entailed
  else
    return .stable

/-- Pruning `a` may give it the value that `b` has to avoid, so its own changes wake it. -/
instance : Propagator Disequality where
  name _ := "not-equal"
  watched c := [c.a, c.b]
  idempotent _ := false
  propagate := propagate

end Disequality

end FiniteDomain
