import FiniteDomain.Node
import FiniteDomain.Strategy

/-!
# Models

A model is a node over the constraints and strategies of the library, together with the requests
that check their arguments before they post something.
-/

namespace FiniteDomain

abbrev Model := Node Constraint Strategy

namespace Model

def postPrecedence (m : Model) (x : Var) (gap : Int) (y : Var) : Option PropagatorId × Model :=
  m.post (.precedence (.between x gap y))

/-- The rectangles whose corners and extents are given by four lists of equal length. -/
def rectangles (xs : List Var) (widths : List Extent) (ys : List Var) (heights : List Extent) :
    List Rectangle :=
  (xs.zip widths).zipWith (fun (x, width) (y, height) => ⟨x, width, y, height⟩) (ys.zip heights)

/-- Posts that rectangles do not overlap.  The lists must have the same length and the extents must
be in range, widths being checked first.  One rectangle alone needs no propagator. -/
def postNonOverlap (m : Model) (xs : List Var) (widths : List Int) (ys : List Var)
    (heights : List Int) : Except ModelError Model := do
  ModelError.checkSizes "nooverlap" [xs.length, widths.length, ys.length, heights.length]
  let widths ← ModelError.checkExtents "nooverlap" 0 widths
  let heights ← ModelError.checkExtents "nooverlap" 0 heights
  if 1 < xs.length then
    return (m.post (.nonOverlap ⟨rectangles xs widths ys heights⟩)).2
  else
    return m

def branchSlicing (m : Model) (xs : List Var) (extents : List Int) (fraction : Float)
    (minExtent : Int) : Except ModelError Model := do
  return (m.branch (.slicing (← Slicing.ofItems xs extents fraction minExtent))).2

end Model

end FiniteDomain
