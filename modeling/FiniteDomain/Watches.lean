import FiniteDomain.Store

/-!
# Watches

For every variable, the propagators that a change of its bounds wakes, in the order in which they
subscribed.  A propagator that subscribes twice is listed once.
-/

namespace FiniteDomain

/-- Propagators are numbered in the order in which they are posted. -/
abbrev PropagatorId := Nat

structure Watches where
  lists : Table (List PropagatorId)
deriving DecidableEq, Repr

namespace Watches

def empty : Watches :=
  ⟨#[]⟩

def watchers (w : Watches) (x : Var) : List PropagatorId :=
  w.lists[x.index]?.getD []

def add (w : Watches) (x : Var) (id : PropagatorId) : Watches :=
  let lists := w.lists.fill x.index []
  ⟨lists.modify x.index fun ids => if id ∈ ids then ids else ids ++ [id]⟩

def addAll (w : Watches) (xs : List Var) (id : PropagatorId) : Watches :=
  xs.foldl (fun w x => w.add x id) w

@[simp]
theorem watchers_empty (x : Var) : empty.watchers x = [] := by
  simp [watchers, empty]

end Watches

end FiniteDomain
