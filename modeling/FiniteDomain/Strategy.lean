import FiniteDomain.Brancher.Bisection
import FiniteDomain.Brancher.CaseSplit
import FiniteDomain.Brancher.Labelling
import FiniteDomain.Brancher.Slicing

/-!
# Strategies

The branchers that the library provides, as one type, so that a node can hold all of them.
-/

namespace FiniteDomain

inductive Strategy
  | labelling (b : Labelling)
  | bisection (b : Bisection)
  | slicing (b : Slicing)
  | caseSplit (b : CaseSplit)
deriving Repr

namespace Strategy

def status (s : Store) : Strategy → Except Fault (Bool × Strategy)
  | labelling b => do let (left, b) ← Brancher.status b s; return (left, labelling b)
  | bisection b => do let (left, b) ← Brancher.status b s; return (left, bisection b)
  | slicing b => do let (left, b) ← Brancher.status b s; return (left, slicing b)
  | caseSplit b => do let (left, b) ← Brancher.status b s; return (left, caseSplit b)

def choose (id : BrancherId) (s : Store) : Strategy → Except Fault (Choice × Strategy)
  | labelling b => do let (c, b) ← Brancher.choose b id s; return (c, labelling b)
  | bisection b => do let (c, b) ← Brancher.choose b id s; return (c, bisection b)
  | slicing b => do let (c, b) ← Brancher.choose b id s; return (c, slicing b)
  | caseSplit b => do let (c, b) ← Brancher.choose b id s; return (c, caseSplit b)

instance : Brancher Strategy where
  status b s := b.status s
  choose b id s := b.choose id s
  restore
    | labelling b => Brancher.restore b
    | bisection b => Brancher.restore b
    | slicing b => Brancher.restore b
    | caseSplit b => Brancher.restore b
  commit
    | labelling b => Brancher.commit b
    | bisection b => Brancher.commit b
    | slicing b => Brancher.commit b
    | caseSplit b => Brancher.commit b
  describe
    | labelling b => Brancher.describe b
    | bisection b => Brancher.describe b
    | slicing b => Brancher.describe b
    | caseSplit b => Brancher.describe b

end Strategy

end FiniteDomain
