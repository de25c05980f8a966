import FiniteDomain.Update

/-!
# Propagators

A propagator narrows the domains of some variables to the values that a constraint can still use.
The engine runs it when the bounds of a variable that it watches change, until it reports that the
constraint holds whatever values are taken.
-/

namespace FiniteDomain

/-- What a propagator says when it has not emptied a domain. -/
inductive Verdict
  /-- Later changes may let it prune again. -/
  | stable
  /-- The constraint holds for every choice of values left, so it never prunes again. -/
  | entailed
deriving DecidableEq, Repr

class Propagator (P : Type) where
  name : P → String
  /-- The variables whose changes wake it, in the order in which it subscribes to them. -/
  watched : P → List Var
  /-- Does one run always reach what a second run would?  Then its own changes do not wake it. -/
  idempotent : P → Bool
  propagate : P → Update Verdict

end FiniteDomain
