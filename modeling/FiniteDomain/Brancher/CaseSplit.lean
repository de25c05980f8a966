import FiniteDomain.Brancher

/-!
# Case split

A case split offers a fixed list of intervals for one variable, as long as the variable is not bound.
The intervals need neither cover the domain nor be apart.  There is one variable, so the position of
a choice says nothing.
-/

namespace FiniteDomain

structure CaseSplit where
  var : Var
  cases : Table Interval
deriving DecidableEq, Repr

namespace CaseSplit

instance : Brancher CaseSplit where
  status b s := do
    return (!(← s.isBound b.var), b)
  choose b id s := do
    let d ← s.domain b.var
    return (← Choice.promised id 0 d.lb d.ub b.cases.size, b)
  restore b id _ min max := do
    return .ok (← Choice.promised id 0 min max b.cases.size)
  commit b _ alternative := do
    let d ← Update.read fun _ => b.cases.fetch alternative
    discard <| Update.narrow b.var d.lb d.ub
  describe b _ alternative := do
    let d ← b.cases.fetch alternative
    return s!"x in [{d.lb}, {d.ub}]"

end CaseSplit

end FiniteDomain
