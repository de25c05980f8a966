import FiniteDomain.Choice
import FiniteDomain.ModelError
import FiniteDomain.Update

/-!
# Branchers

A brancher is a policy that splits a search node when propagation alone does not decide it.  It is
asked whether it has a decision left and, if so, for a choice; each alternative of the choice is then
committed in a node of its own.  Domains only shrink on the way down, so a brancher may remember
which of its variables need no decision any more.
-/

namespace FiniteDomain

class Brancher (B : Type) where
  /-- Is a decision left?  The brancher that is answered may remember what it has seen. -/
  status : B → Store → Except Fault (Bool × B)
  /-- The next choice, under the given number.  Faults when no decision is left. -/
  choose : B → BrancherId → Store → Except Fault (Choice × B)
  /-- Makes an archived choice again, from its position and bounds. -/
  restore : B → BrancherId → Nat → Int → Int → Except Fault (Except ModelError Choice)
  commit : B → Choice → Nat → Update Unit
  /-- What an alternative says, for traces. -/
  describe : B → Choice → Nat → Except Fault String

namespace Brancher

/-- The positions of a brancher are those below its number of variables. -/
def checkPos (id : BrancherId) (pos size : Nat) : Except ModelError Unit :=
  if pos < size then .ok () else .error (.invalidPosition id (Choice.wrapPos pos) size)

/-- Among the `count` positions from `start` on, the first that is undecided, or else the position
after them. -/
def firstUndecided (undecided : Nat → Except Fault Bool) : Nat → Nat → Except Fault Nat
  | 0, start => .ok start
  | count + 1, start =>
    match undecided start with
    | .error f => .error f
    | .ok true => .ok start
    | .ok false => firstUndecided undecided count (start + 1)

theorem firstUndecided_le {undecided : Nat → Except Fault Bool} {count start i : Nat}
    (h : firstUndecided undecided count start = .ok i) : start ≤ i ∧ i ≤ start + count := by
  induction count generalizing start with
  | zero => simp_all [firstUndecided]
  | succ count ih =>
      unfold firstUndecided at h
      split at h
      · simp at h
      · simp only [Except.ok.injEq] at h
        omega
      · have := ih h
        omega

end Brancher

end FiniteDomain
