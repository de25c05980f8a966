import FiniteDomain.Brancher

/-!
# Bisection

A bisection splits domains in two halves, the lower one first.  It may be told to stop once the
position of an item is roughly known: a variable is then split only while its domain has at least a
given number of values, which is a ratio of the extent of the item.
-/

namespace FiniteDomain

/-- The number of values that a domain must have to be split. -/
inductive SplitSize
  | atLeast (n : Nat)
  | never
deriving DecidableEq, Repr

namespace SplitSize

/-- The least integer that is not below the number. -/
def ofDouble : Decimal.Double → SplitSize
  | .nan => never
  | .infinite isNegative => if isNegative then atLeast 0 else never
  | .finite isNegative m e =>
    if isNegative then atLeast 0 else atLeast (Decimal.Double.ceil m e)

/-- A domain is split while its size, as a number, is at least `ratio * extent`.  Sizes are integers,
so the product may be rounded up to one. -/
def ofRatio (ratio : Float) (extent : Extent) : SplitSize :=
  ofDouble (.ofFloat (ratio * Float.ofInt extent.length))

def isMet (size : Nat) : SplitSize → Bool
  | atLeast n => n ≤ size
  | never => false

/-- A domain that is too small to be split does not become large enough by shrinking. -/
theorem isMet_mono {need : SplitSize} {m n : Nat} (hmn : m ≤ n) (h : need.isMet m = true) :
    need.isMet n = true := by
  cases need with
  | atLeast k =>
      simp only [isMet, decide_eq_true_eq] at *
      omega
  | never => simp [isMet] at h

end SplitSize

structure Bisection where
  /-- The variables, each with the size down to which it is split. -/
  entries : Table (Var × SplitSize)
  /-- All variables before this position are decided. -/
  cursor : Nat
deriving DecidableEq, Repr

namespace Bisection

def ofVars (vars : List Var) : Bisection where
  entries := (vars.map fun x => (x, SplitSize.atLeast 0)).toArray
  cursor := 0

def filtered (vars : List Var) (extents : List Int) (ratio : Float) :
    Except ModelError Bisection := do
  ModelError.checkSizes "bisect" [vars.length, extents.length]
  let extents ← ModelError.checkExtents "bisect" 0 extents
  return ⟨(vars.zip (extents.map (SplitSize.ofRatio ratio))).toArray, 0⟩

def undecided (b : Bisection) (s : Store) (pos : Nat) : Except Fault Bool := do
  let (x, need) ← b.entries.fetch pos
  let d ← s.domain x
  return !d.isBound && need.isMet d.size

/-- The greatest value of the lower half. -/
def middle (c : Choice) : Int :=
  Int.fdiv (c.min + c.max) 2

def status (b : Bisection) (s : Store) : Except Fault (Bool × Bisection) := do
  let i ← Brancher.firstUndecided (b.undecided s) (b.entries.size - b.cursor) b.cursor
  return (i < b.entries.size, { b with cursor := i })

def choose (b : Bisection) (id : BrancherId) (s : Store) : Except Fault (Choice × Bisection) := do
  let pos ← Brancher.firstUndecided (b.undecided s) (b.entries.size - b.cursor) b.cursor
  if pos < b.entries.size then
    let (x, _) ← b.entries.fetch pos
    let d ← s.domain x
    return (.binary id pos d.lb d.ub, b)
  else
    .error (.undecidedExpected .bisection)

def commit (b : Bisection) (c : Choice) (alternative : Nat) : Update Unit := do
  let (x, _) ← Update.read fun _ => b.entries.fetch c.pos
  if alternative = 0 then
    discard <| Update.setUpper x (middle c)
  else
    discard <| Update.setLower x (← Update.read fun _ => Word.fit (middle c + 1))

def describe (c : Choice) (alternative : Nat) : String :=
  if alternative = 0 then s!"x[{c.pos}] <= {middle c}" else s!"x[{c.pos}] > {middle c}"

instance : Brancher Bisection where
  status := status
  choose := choose
  restore b id pos min max := .ok do
    Brancher.checkPos id pos b.entries.size
    return .binary id pos min max
  commit := commit
  describe _ c alternative := .ok (describe c alternative)

end Bisection

end FiniteDomain
