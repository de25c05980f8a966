import FiniteDomain.Extent
import FiniteDomain.Propagator

/-!
# Non-overlap of rectangles

Rectangles have a variable corner and fixed extents; `x` grows to the right and `y` downwards.  Two
of them are apart when the second lies on one of four sides of the first.  The propagator reasons
on bounds only: when they exclude three sides for a pair, the last one is enforced; when they
exclude all four, the two rectangles overlap for certain and the store fails.
-/

namespace FiniteDomain

structure Rectangle where
  x : Var
  width : Extent
  y : Var
  height : Extent
deriving DecidableEq, Repr

/-- The rectangle whose extents the caller promises to be within range. -/
def Rectangle.promised (x : Var) (width : Int) (y : Var) (height : Int) :
    Except Fault Rectangle := do
  return ⟨x, ← Extent.promised width, y, ← Extent.promised height⟩

/-- On one of the axes, one rectangle ends before the other starts, or where it starts. -/
def Rectangle.IsApartFrom (i j : Rectangle) (value : Var → Int) : Prop :=
  value i.x + i.width.length ≤ value j.x ∨ value j.x + j.width.length ≤ value i.x ∨
    value i.y + i.height.length ≤ value j.y ∨ value j.y + j.height.length ≤ value i.y

instance (i j : Rectangle) (value : Var → Int) : Decidable (i.IsApartFrom j value) :=
  inferInstanceAs (Decidable (_ ∨ _))

/-- Where a second rectangle lies, seen from a first one. -/
inductive Side
  | left
  | right
  | above
  | below
deriving DecidableEq, Repr

namespace Side

/-- The sides in the order in which they are tried. -/
def all : List Side :=
  [left, right, above, below]

/-- That `j` lies on a side of `i` says `before + extent ≤ after` on one axis. -/
def terms (side : Side) (i j : Rectangle) : Var × Extent × Var :=
  match side with
  | left => (j.x, j.width, i.x)
  | right => (i.x, i.width, j.x)
  | above => (j.y, j.height, i.y)
  | below => (i.y, i.height, j.y)

def isPossible (side : Side) (i j : Rectangle) (s : Store) : Except Fault Bool := do
  let (before, extent, after) := side.terms i j
  let reach ← Word.fit ((← s.lower before) + extent.length)
  return reach ≤ (← s.upper after)

def isEntailed (side : Side) (i j : Rectangle) (s : Store) : Except Fault Bool := do
  let (before, extent, after) := side.terms i j
  let reach ← Word.fit ((← s.upper before) + extent.length)
  return reach ≤ (← s.lower after)

/-- Narrows the bounds so that `j` is on this side of `i`, and says whether one changed. -/
def enforce (side : Side) (i j : Rectangle) : Update Bool := do
  let (before, extent, after) := side.terms i j
  let earliest ← Update.read fun s => do Word.fit ((← s.lower before) + extent.length)
  let raised ← Update.setLower after earliest
  let latest ← Update.read fun s => do Word.fit ((← s.upper after) - extent.length)
  let lowered ← Update.setUpper before latest
  return raised || lowered

/-- The first `n` of the given sides that are possible.  Sides after them are not tried. -/
def firstPossible (i j : Rectangle) (s : Store) : Nat → List Side → Except Fault (List Side)
  | 0, _ => return []
  | _, [] => return []
  | n + 1, side :: rest => do
    if ← side.isPossible i j s then
      return side :: (← firstPossible i j s n rest)
    else
      firstPossible i j s (n + 1) rest

end Side

structure NonOverlap where
  rectangles : List Rectangle
deriving DecidableEq, Repr

namespace NonOverlap

/-- Each two of the rectangles are apart. -/
def Holds (c : NonOverlap) (value : Var → Int) : Prop :=
  c.rectangles.Pairwise fun i j => i.IsApartFrom j value

instance (c : NonOverlap) (value : Var → Int) : Decidable (c.Holds value) :=
  inferInstanceAs (Decidable (List.Pairwise _ _))

/-- All pairs of a list, the earlier entry first. -/
def pairsOf {α : Type} : List α → List (α × α)
  | [] => []
  | a :: rest => rest.map (fun b => (a, b)) ++ pairsOf rest

def pairs (c : NonOverlap) : List (Rectangle × Rectangle) :=
  pairsOf c.rectangles

/-- Enforces the only side left for a pair, and says whether a domain changed.  Two possible sides
are enough to know that nothing follows. -/
def prunePair (i j : Rectangle) : Update Bool := do
  match ← Update.read fun s => Side.firstPossible i j s 2 Side.all with
  | [] => Update.wipeOut j.x
  | [side] => side.enforce i j
  | _ => return false

/-- Prunes the pairs one after the other, and says whether a domain changed. -/
def sweep : List (Rectangle × Rectangle) → Update Bool
  | [] => return false
  | (i, j) :: rest => do
    let changed ← prunePair i j
    let changedLater ← sweep rest
    return changed || changedLater

/-- Sweeps until nothing changes: pruning a pair may let an earlier one be pruned. -/
def settle (pairs : List (Rectangle × Rectangle)) : Nat → Update Unit
  | 0 => Update.fault .outOfFuel
  | fuel + 1 => do
    if ← sweep pairs then
      settle pairs fuel

/-- Is some side entailed for every pair?  Then no narrowing can make two rectangles overlap. -/
def isSeparated (c : NonOverlap) (s : Store) : Except Fault Bool :=
  c.pairs.allM fun (i, j) => Side.all.anyM fun side => side.isEntailed i j s

/-- Every sweep but the last lowers the weight of the store, which bounds their number. -/
def propagate (c : NonOverlap) : Update Verdict := do
  let weight ← Update.read fun s => return s.weight
  settle c.pairs (weight + 1)
  if ← Update.read c.isSeparated then
    return .entailed
  else
    return .stable

/-- A run ends when a sweep changes nothing, so one run is enough. -/
instance : Propagator NonOverlap where
  name _ := "no-overlap"
  watched c := c.rectangles.flatMap fun r => [r.x, r.y]
  idempotent _ := true
  propagate := propagate

end NonOverlap

end FiniteDomain
