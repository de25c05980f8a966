import FiniteDomain.Constraint
import FiniteDomain.Proofs.Constraint.Disequality
import FiniteDomain.Proofs.Constraint.NonOverlap
import FiniteDomain.Proofs.Constraint.Precedence

/-!
# Closed views and satisfied constraints

The constraints of the library are filtering propagators.  Their closed views speak of bounds, and
satisfaction of values; the two meet where the variables of a constraint are bound.
-/

namespace FiniteDomain

namespace Constraint

instance : Filtering Constraint where
  Closed
    | precedence c => Filtering.Closed c
    | nonOverlap c => Filtering.Closed c
    | disequality c => Filtering.Closed c
  Entailed
    | precedence c => Filtering.Entailed c
    | nonOverlap c => Filtering.Entailed c
    | disequality c => Filtering.Entailed c
  Admissible
    | precedence c => Filtering.Admissible c
    | nonOverlap c => Filtering.Admissible c
    | disequality c => Filtering.Admissible c
  Settles
    | precedence c => Filtering.Settles c
    | nonOverlap c => Filtering.Settles c
    | disequality c => Filtering.Settles c
  prunes {p s} hp hs hhas := by
    cases p with
    | precedence c => exact Filtering.prunes (p := c) hp hs hhas
    | nonOverlap c => exact Filtering.prunes (p := c) hp hs hhas
    | disequality c => exact Filtering.prunes (p := c) hp hs hhas
  closed_congr {p V W} hsame hV := by
    cases p with
    | precedence c => exact Filtering.closed_congr (p := c) hsame hV
    | nonOverlap c => exact Filtering.closed_congr (p := c) hsame hV
    | disequality c => exact Filtering.closed_congr (p := c) hsame hV
  entailed_anti {p V W} hle hV := by
    cases p with
    | precedence c => exact Filtering.entailed_anti (p := c) hle hV
    | nonOverlap c => exact Filtering.entailed_anti (p := c) hle hV
    | disequality c => exact Filtering.entailed_anti (p := c) hle hV
  closed_of_entailed {p V} hV hentailed := by
    cases p with
    | precedence c => exact Filtering.closed_of_entailed (p := c) hV hentailed
    | nonOverlap c => exact Filtering.closed_of_entailed (p := c) hV hentailed
    | disequality c => exact Filtering.closed_of_entailed (p := c) hV hentailed

variable {p : Constraint} {value : Var → Int} {V : View}

theorem closed_ofValues_iff : Filtering.Closed p (View.ofValues value) ↔ p.Holds value := by
  cases p with
  | precedence c => exact Precedence.closed_ofValues_iff
  | nonOverlap c => exact NonOverlap.closed_ofValues_iff
  | disequality c => exact Disequality.closed_ofValues_iff

/-- Where a closed view leaves each variable of a constraint one value, these values satisfy it. -/
theorem holds_of_closed (hclosed : Filtering.Closed p V)
    (hbound : ∀ x ∈ Propagator.watched p, V x = .singleton (value x)) : p.Holds value :=
  closed_ofValues_iff.mp (Filtering.closed_congr hbound hclosed)

end Constraint

end FiniteDomain
