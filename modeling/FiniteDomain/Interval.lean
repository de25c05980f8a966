import FiniteDomain.Word

/-!
# Intervals

The domain of a variable is the set of integers between two bounds.  An interval whose bounds are
crossed is empty.
-/

namespace FiniteDomain

/-- The integers from `lb` to `ub`, both included. -/
structure Interval where
  lb : Int
  ub : Int
deriving DecidableEq, Repr, Inhabited

namespace Interval

def singleton (value : Int) : Interval :=
  ⟨value, value⟩

instance : Membership Int Interval where
  mem d value := d.lb ≤ value ∧ value ≤ d.ub

instance (value : Int) (d : Interval) : Decidable (value ∈ d) :=
  inferInstanceAs (Decidable (d.lb ≤ value ∧ value ≤ d.ub))

instance : HasSubset Interval where
  Subset d e := d.ub < d.lb ∨ (e.lb ≤ d.lb ∧ d.ub ≤ e.ub)

instance (d e : Interval) : Decidable (d ⊆ e) :=
  inferInstanceAs (Decidable (d.ub < d.lb ∨ (e.lb ≤ d.lb ∧ d.ub ≤ e.ub)))

def isEmpty (d : Interval) : Bool :=
  d.ub < d.lb

def isBound (d : Interval) : Bool :=
  d.lb = d.ub

def value? (d : Interval) : Option Int :=
  if d.lb = d.ub then some d.lb else none

def width (d : Interval) : Except Fault Int :=
  Word.fit (d.ub - d.lb)

def size (d : Interval) : Nat :=
  (d.ub - d.lb + 1).toNat

def inter (d e : Interval) : Interval :=
  ⟨max d.lb e.lb, min d.ub e.ub⟩

/-- A bound interval is shown as its value, any other as its two bounds. -/
def render (d : Interval) : String :=
  if d.lb = d.ub then s!"{d.lb}" else s!"[{d.lb}, {d.ub}]"

theorem mem_iff {value : Int} {d : Interval} : value ∈ d ↔ d.lb ≤ value ∧ value ≤ d.ub :=
  Iff.rfl

@[simp]
theorem mem_inter {value : Int} {d e : Interval} : value ∈ d.inter e ↔ value ∈ d ∧ value ∈ e := by
  simp only [mem_iff, inter]
  omega

theorem isEmpty_iff {d : Interval} : d.isEmpty = true ↔ ∀ value, value ∉ d := by
  simp only [isEmpty, decide_eq_true_eq, mem_iff]
  constructor
  · intro h value
    omega
  · intro h
    have := h d.lb
    omega

theorem subset_iff {d e : Interval} : d ⊆ e ↔ ∀ value ∈ d, value ∈ e := by
  change (d.ub < d.lb ∨ (e.lb ≤ d.lb ∧ d.ub ≤ e.ub)) ↔ _
  simp only [mem_iff]
  constructor
  · intro h value hv
    omega
  · intro h
    have hl := h d.lb
    have hu := h d.ub
    omega

theorem isEmpty_eq_false_iff {d : Interval} : d.isEmpty = false ↔ d.lb ≤ d.ub := by
  simp [isEmpty]

/-- An intersection that changes an interval and leaves a value has fewer values. -/
theorem size_inter_lt {d e : Interval} (hne : d.inter e ≠ d) (h : (d.inter e).isEmpty = false) :
    (d.inter e).size < d.size := by
  rw [isEmpty_eq_false_iff] at h
  obtain ⟨dl, du⟩ := d
  obtain ⟨el, eu⟩ := e
  simp only [inter, size, ne_eq, Interval.mk.injEq] at *
  omega

end Interval

end FiniteDomain
