import FiniteDomain.Propagator

/-!
# Precedence

`x + gap ≤ y`, propagated on bounds: the lower bound of `y` follows that of `x`, and the upper bound
of `x` follows that of `y`.
-/

namespace FiniteDomain

/-- The constraint `x + gap ≤ y`. -/
structure Precedence where
  x : Var
  gap : Int
  y : Var
deriving DecidableEq, Repr

namespace Precedence

/-- Greatest gap that is kept as given: one more than the distance between any two values. -/
def span : Int :=
  2 * Word.maxValue + 1

/-- The constraint with its gap cut to the span of the values.  A gap beyond the span makes the
constraint true, or false, for every pair of values, and so does the cut one; shifting a bound by
the cut gap stays within a word. -/
def between (x : Var) (gap : Int) (y : Var) : Precedence :=
  ⟨x, max (-span) (min gap span), y⟩

def Holds (c : Precedence) (value : Var → Int) : Prop :=
  value c.x + c.gap ≤ value c.y

def isEntailed (c : Precedence) (s : Store) : Except Fault Bool := do
  let shifted ← Word.fit ((← s.upper c.x) + c.gap)
  return shifted ≤ (← s.lower c.y)

def propagate (c : Precedence) : Update Verdict := do
  let earliest ← Update.read fun s => do Word.fit ((← s.lower c.x) + c.gap)
  discard <| Update.setLower c.y earliest
  let latest ← Update.read fun s => do Word.fit ((← s.upper c.y) - c.gap)
  discard <| Update.setUpper c.x latest
  if ← Update.read c.isEntailed then
    return .entailed
  else
    return .stable

/-- Between two different variables, the second update of a run cannot undo the first, and one run is
enough.  For one variable and a positive gap this is not so: both updates change the same domain, and
a second run, which is not asked for, can prune more or fail. -/
instance : Propagator Precedence where
  name _ := "leq-offset"
  watched c := [c.x, c.y]
  idempotent _ := true
  propagate := propagate

end Precedence

end FiniteDomain
