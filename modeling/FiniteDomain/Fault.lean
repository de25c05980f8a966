/-!
# Faults

A computation of the solver has three kinds of bad end, and they are kept apart in types.  A domain
that becomes empty is an ordinary answer (`Wipeout`), a malformed request made while a model is
built is another one (`ModelError`).  A `Fault` is neither: arithmetic has left the machine word, a
stated precondition does not hold, or an index has no entry.  Nothing can go on after it.
-/

namespace FiniteDomain

inductive Policy
  | labelling
  | bisection
  | slicing
deriving DecidableEq, Repr

inductive Fault
  | overflow
  | assertion
  /-- A container of `size` entries has none at `index`. -/
  | outOfBounds (size index : Nat)
  | undecidedExpected (policy : Policy)
  /-- A bound on the number of rounds was too small. -/
  | outOfFuel
deriving DecidableEq, Repr

namespace Fault

def message : Fault → String
  | overflow => "arithmetic overflow"
  | assertion => "assertion failed"
  | outOfBounds size index => s!"index out of bounds: the len is {size} but the index is {index}"
  | undecidedExpected .labelling => "lexical brancher has no unbound variable left"
  | undecidedExpected .bisection => "bisect brancher has no variable left to split"
  | undecidedExpected .slicing => "interval brancher has no variable left to split"
  | outOfFuel => "out of fuel"

/-- A precondition that is checked when the program runs. -/
def check (holds : Bool) : Except Fault Unit :=
  if holds then .ok () else .error .assertion

/-- A computation of two steps succeeds when both steps do. -/
theorem bind_eq_ok_iff {ε α β : Type} {x : Except ε α} {f : α → Except ε β} {b : β} :
    x >>= f = .ok b ↔ ∃ a, x = .ok a ∧ f a = .ok b := by
  cases x with
  | error e => simp [bind, Except.bind]
  | ok a => simp [bind, Except.bind]

@[simp] theorem check_true : check true = .ok () := rfl

@[simp] theorem check_false : check false = .error .assertion := rfl

end Fault

end FiniteDomain
