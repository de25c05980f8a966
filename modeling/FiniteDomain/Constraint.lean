import FiniteDomain.Constraint.Disequality
import FiniteDomain.Constraint.NonOverlap
import FiniteDomain.Constraint.Precedence

/-!
# Constraints

The constraints that the library provides, as one type, so that an engine can hold all of them.
-/

namespace FiniteDomain

inductive Constraint
  | precedence (c : Precedence)
  | nonOverlap (c : NonOverlap)
  | disequality (c : Disequality)
deriving DecidableEq, Repr

namespace Constraint

def Holds (value : Var → Int) : Constraint → Prop
  | precedence c => c.Holds value
  | nonOverlap c => c.Holds value
  | disequality c => c.Holds value

instance : Propagator Constraint where
  name
    | precedence c => Propagator.name c
    | nonOverlap c => Propagator.name c
    | disequality c => Propagator.name c
  watched
    | precedence c => Propagator.watched c
    | nonOverlap c => Propagator.watched c
    | disequality c => Propagator.watched c
  idempotent
    | precedence c => Propagator.idempotent c
    | nonOverlap c => Propagator.idempotent c
    | disequality c => Propagator.idempotent c
  propagate
    | precedence c => c.propagate
    | nonOverlap c => c.propagate
    | disequality c => c.propagate

end Constraint

end FiniteDomain
