import FiniteDomain.Event
import FiniteDomain.Fault

/-!
# Crashes

A computation that records events may fault after some of them.  The crash then holds the fault
together with those events, so that a reader of the log sees all that came before it.
-/

namespace FiniteDomain

structure Crash where
  fault : Fault
  /-- What happened before the fault, the earliest first. -/
  events : List Event
deriving DecidableEq, Repr

namespace Crash

variable {α : Type}

/-- A computation without events of its own, which follows the given ones. -/
def after (events : List Event) : Except Fault α → Except Crash α
  | .ok a => .ok a
  | .error f => .error ⟨f, events⟩

/-- The computation with its log left out. -/
def forget : Except Crash α → Except Fault α
  | .ok a => .ok a
  | .error c => .error c.fault

@[simp]
theorem after_eq_ok_iff {events : List Event} {x : Except Fault α} {a : α} :
    after events x = .ok a ↔ x = .ok a := by
  cases x <;> simp [after]

@[simp]
theorem after_eq_error_iff {events : List Event} {x : Except Fault α} {c : Crash} :
    after events x = .error c ↔ x = .error c.fault ∧ c.events = events := by
  obtain ⟨fault, before⟩ := c
  cases x <;> simp [after, eq_comm]

@[simp]
theorem forget_after (events : List Event) (x : Except Fault α) : forget (after events x) = x := by
  cases x <;> rfl

@[simp]
theorem forget_eq_ok_iff {x : Except Crash α} {a : α} : forget x = .ok a ↔ x = .ok a := by
  cases x <;> simp [forget]

end Crash

end FiniteDomain
