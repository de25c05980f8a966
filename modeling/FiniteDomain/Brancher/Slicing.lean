import FiniteDomain.Brancher
import FiniteDomain.Parameter

/-!
# Slicing

Each variable is the position of an item with an extent.  A slicing cuts the domain of a variable
into consecutive slices, narrow enough that the item covers a given fraction of its extent wherever
it lies within the slice.  That mandatory part gives propagators something to reason on long before
the position is fixed.  Small items are not worth the cut.
-/

namespace FiniteDomain

/-- The position of an item, its extent, and the greatest width of its slices. -/
structure SlicedItem where
  position : Var
  extent : Extent
  width : Extent
deriving DecidableEq, Repr

structure Slicing where
  items : Table SlicedItem
  /-- The mandatory fraction, strictly between zero and one. -/
  fraction : Float
  /-- Items of a lesser extent are never cut. -/
  minExtent : Int
  /-- All items before this position need no cut. -/
  cursor : Nat
deriving Repr

namespace Slicing

/-- The least extent worth a cut, unless another one is asked for. -/
def minExtentParameter : Parameter Int :=
  .unresolved "TESSERA_INTERVAL_MIN_EXTENT" "5" (Parameter.parseInt .word)

/-- The whole part of a double, if it is not negative. -/
def floorOf : Decimal.Double → Int
  | .finite false m e => Decimal.Double.floor m e
  | _ => 0

/-- The greatest width for which the fraction stays covered, rounded down.  The tolerance makes up
for the rounding of the product, which may fall short of an integer by very little. -/
def sliceWidth (fraction : Float) (extent : Extent) : Extent :=
  .clamp (floorOf (.ofFloat ((1.0 - fraction) * Float.ofInt extent.length + 1e-9)))

/-- A slicing of the given items.  The lists must have the same length, the extents must be in range
and the fraction strictly between zero and one; they are checked in that order. -/
def ofItems (vars : List Var) (extents : List Int) (fraction : Float) (minExtent : Int) :
    Except ModelError Slicing := do
  ModelError.checkSizes "interval" [vars.length, extents.length]
  let extents ← ModelError.checkExtents "interval" 0 extents
  if 0.0 < fraction && fraction < 1.0 then
    let items := (vars.zip extents).map fun (x, extent) => ⟨x, extent, sliceWidth fraction extent⟩
    return ⟨items.toArray, fraction, minExtent, 0⟩
  else
    .error (.invalidFraction "interval" fraction)

/-- Number of slices of the width `slice` that cover a domain of the given width. -/
def count (width slice : Int) : Except Fault Nat := do
  Fault.check (0 ≤ width && 0 ≤ slice)
  return (width.toNat + slice.toNat + 1) / (slice.toNat + 1)

def undecided (b : Slicing) (s : Store) (pos : Nat) : Except Fault Bool := do
  let item ← b.items.fetch pos
  if item.extent.length < b.minExtent then
    return false
  else
    return item.width.length < (← (← s.domain item.position).width)

def slice (item : SlicedItem) (c : Choice) (alternative : Nat) : Interval :=
  let step := item.width.length + 1
  let lo := c.min + alternative * step
  ⟨min lo Word.maxValue, min (lo + step - 1) c.max⟩

def status (b : Slicing) (s : Store) : Except Fault (Bool × Slicing) := do
  let i ← Brancher.firstUndecided (b.undecided s) (b.items.size - b.cursor) b.cursor
  return (i < b.items.size, { b with cursor := i })

def choose (b : Slicing) (id : BrancherId) (s : Store) : Except Fault (Choice × Slicing) := do
  let pos ← Brancher.firstUndecided (b.undecided s) (b.items.size - b.cursor) b.cursor
  if pos < b.items.size then
    let item ← b.items.fetch pos
    let d ← s.domain item.position
    return (← Choice.promised id pos d.lb d.ub (← count (← d.width) item.width.length), b)
  else
    .error (.undecidedExpected .slicing)

def restore (b : Slicing) (id : BrancherId) (pos : Nat) (lo hi : Int) :
    Except Fault (Except ModelError Choice) :=
  match Brancher.checkPos id pos b.items.size with
  | .error e => .ok (.error e)
  | .ok () => do
    let item ← b.items.fetch pos
    let width ← Word.fit (hi - lo)
    return .ok (← Choice.promised id pos lo hi (← count (max width 0) item.width.length))

def commit (b : Slicing) (c : Choice) (alternative : Nat) : Update Unit := do
  Update.read fun _ => Fault.check (alternative < c.alternatives)
  let item ← Update.read fun _ => b.items.fetch c.pos
  let d := slice item c alternative
  discard <| Update.narrow item.position d.lb d.ub

def describe (b : Slicing) (c : Choice) (alternative : Nat) : Except Fault String := do
  let item ← b.items.fetch c.pos
  let d := slice item c alternative
  return s!"{d.lb} <= x[{c.pos}] <= {d.ub}"

instance : Brancher Slicing where
  status := status
  choose := choose
  restore := restore
  commit := commit
  describe := describe

end Slicing

end FiniteDomain
