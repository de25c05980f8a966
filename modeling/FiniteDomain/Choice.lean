import FiniteDomain.Fault

/-!
# Choices

A choice is a branching decision: the domain of the variable at some position of a brancher, as it
was when the choice was made, is split into alternatives.  There is always at least one.
-/

namespace FiniteDomain

/-- Branchers are numbered in the order in which they are added. -/
abbrev BrancherId := Nat

structure Choice where
  brancher : BrancherId
  /-- Position of the variable among those of the brancher. -/
  pos : Nat
  min : Int
  max : Int
  alternatives : Nat
  alternatives_pos : 0 < alternatives
deriving DecidableEq, Repr

namespace Choice

/-- Positions are kept in an unsigned word. -/
def wrapPos (pos : Nat) : Nat :=
  pos % 4294967296

/-- The choice with the given parts, of which the caller promises that there is an alternative. -/
def promised (brancher : BrancherId) (pos : Nat) (min max : Int) (alternatives : Nat) :
    Except Fault Choice :=
  if h : 0 < alternatives then
    .ok ⟨brancher, wrapPos pos, min, max, alternatives, h⟩
  else
    .error .assertion

def binary (brancher : BrancherId) (pos : Nat) (min max : Int) : Choice :=
  ⟨brancher, wrapPos pos, min, max, 2, by decide⟩

end Choice

end FiniteDomain
