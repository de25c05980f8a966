import FiniteDomain.Model
import FiniteDomain.Search

/-!
# Packing squares

Squares of the sizes `n`, `n - 1`, …, `2` are to be packed into the smallest square that holds them.
The model has the side of the enclosing square and the corner of each square as variables.
-/

namespace FiniteDomain

/-- The least number whose square is at least `n`. -/
def ceilSqrt (n : Nat) : Nat :=
  let rec go : Nat → Nat → Nat
    | 0, k => k
    | fuel + 1, k => if n ≤ k * k then k else go fuel (k + 1)
  go n 0

structure Packing where
  model : Model
  sizes : List Int
  side : Var
  xs : List Var
  ys : List Var

namespace Packing

inductive Formulation
  | global
  | pairwise
deriving DecidableEq, Repr

/-- In which order, and how, the positions are decided. -/
inductive Heuristic
  /-- Assign `x`, then `y`, the smallest domain first. -/
  | columns
  /-- Place one square after the other, the biggest first. -/
  | biggest
  /-- Assign the leftmost `x` first, then `y`. -/
  | leftmost
  /-- Assign the greatest values, the highest `y` first, then `x`. -/
  | highest
  /-- Slice `x`, assign `x`, slice `y`, assign `y`. -/
  | sliceEach
  /-- Slice `x`, slice `y`, assign `x`, assign `y`. -/
  | sliceBoth
  /-- Bisect `x`, assign `x`, bisect `y`, assign `y`. -/
  | bisect
deriving DecidableEq, Repr

def Heuristic.slices : Heuristic → Bool
  | .sliceEach | .sliceBoth => true
  | _ => false

/-- A square is bisected until its position has this many values, relative to its size. -/
def bisectRatio : Float :=
  0.3

def sizesFrom (n : Int) : List Int :=
  ((List.range (n - 1).toNat).map fun (k : Nat) => (k : Int) + 2).reverse

/-- The sum of the squares of the `count` numbers from `size` down, computed in a word. -/
def areaFrom (total : Int) (size : Int) : Nat → Except Fault Int
  | 0 => .ok total
  | count + 1 => do
    areaFrom (← Word.fit (total + (← Word.fit (size * size)))) (size - 1) count

def addBranchers (m : Model) (sizes : List Int) (xs ys : List Var) (fraction : Float)
    (minExtent : Int) : Heuristic → Except ModelError Model
  | .columns => do
    let m := (m.branch (.labelling (.ofVars xs .smallestDomain .least))).2
    return (m.branch (.labelling (.ofVars ys .smallestDomain .least))).2
  | .biggest => do
    return (xs.zip ys).foldl (fun m (x, y) =>
      let m := (m.branch (.labelling (.ascending [x]))).2
      (m.branch (.labelling (.ascending [y]))).2) m
  | .leftmost => do
    let m := (m.branch (.labelling (.ofVars xs .smallestMin .least))).2
    return (m.branch (.labelling (.ofVars ys .smallestDomain .least))).2
  | .highest => do
    let m := (m.branch (.labelling (.ofVars ys .largestMax .greatest))).2
    return (m.branch (.labelling (.ofVars xs .smallestDomain .greatest))).2
  | .sliceEach => do
    let m ← Model.branchSlicing m xs sizes fraction minExtent
    let m := (m.branch (.labelling (.ascending xs))).2
    let m ← Model.branchSlicing m ys sizes fraction minExtent
    return (m.branch (.labelling (.ascending ys))).2
  | .sliceBoth => do
    let m ← Model.branchSlicing m xs sizes fraction minExtent
    let m ← Model.branchSlicing m ys sizes fraction minExtent
    let m := (m.branch (.labelling (.ascending xs))).2
    return (m.branch (.labelling (.ascending ys))).2
  | .bisect => do
    let m := (m.branch (.bisection (← Bisection.filtered xs sizes bisectRatio))).2
    let m := (m.branch (.labelling (.ascending xs))).2
    let m := (m.branch (.bisection (← Bisection.filtered ys sizes bisectRatio))).2
    return (m.branch (.labelling (.ascending ys))).2

def separate (m : Model) (sizes : List Int) (xs ys : List Var) :
    Formulation → Except ModelError Model
  | .global => Model.postNonOverlap m xs sizes ys sizes
  | .pairwise =>
    (NonOverlap.pairsOf (xs.zip (ys.zip sizes))).foldlM
      (fun m ((x, y, size), (x', y', size')) =>
        Model.postNonOverlap m [x, x'] [size, size'] [y, y'] [size, size'])
      m

/-- The model for the biggest size `n`, which faults if there is no square at all.  The side lies
between that of a square of the same area and that of a square in which each row holds squares of
the biggest size only.  The biggest square lies below the diagonal, which excludes reflections. -/
def build (n : Int) (formulation : Formulation) (heuristic : Heuristic) (fraction : Float)
    (minExtent : Int) : ExceptT ModelError (Except Fault) Packing := do
  let area ← areaFrom 0 n (n - 1).toNat
  let sizes := sizesFrom n
  let minSide := max (ceilSqrt area.toNat : Int) n
  let maxSide ← Word.fit (n * ceilSqrt n.toNat)
  let m : Model := Node.empty
  let (side, m) := m.newVar minSide maxSide
  let (xs, m) := m.newVars 0 (maxSide - 1) sizes.length
  let (ys, m) := m.newVars 0 (maxSide - 1) sizes.length
  let m := (xs.zip (ys.zip sizes)).foldl (fun m (x, y, size) =>
    let m := (Model.postPrecedence m x size side).2
    (Model.postPrecedence m y size side).2) m
  let m ← match xs, ys with
    | x :: _, y :: _ => pure (Model.postPrecedence m y 0 x).2
    | _, _ => (Except.error (.outOfBounds 0 0) : Except Fault Model)
  let m ← ExceptT.mk (.ok (separate m sizes xs ys formulation))
  let m := (m.branch (.labelling (.ascending [side]))).2
  let m ← ExceptT.mk (.ok (addBranchers m sizes xs ys fraction minExtent heuristic))
  return ⟨m, sizes, side, xs, ys⟩

def search (p : Packing) (budget : Budget) (verbosity : Level) : Search Constraint Strategy :=
  .optimize p.model (.minimize p.side) budget verbosity

def format (p : Packing) (sol : Solution) : Except Fault (List String) := do
  let side ← sol.store.domain p.side
  let squares ← (p.sizes.zip (p.xs.zip p.ys)).mapM fun (size, x, y) => do
    let dx ← sol.store.domain x
    let dy ← sol.store.domain y
    return s!"{size}, x={dx.render}, y={dy.render}"
  return s!"s = {side.render}" :: squares

def sideOf (p : Packing) (sol : Solution) : Except Fault Int :=
  sol.store.lower p.side

end Packing

end FiniteDomain
