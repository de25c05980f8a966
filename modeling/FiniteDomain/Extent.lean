import FiniteDomain.Word

/-!
# Extents

The extent of an item is a length that the solver can add to any bound of a domain and stay within
a word.  A value of the type carries that fact, so it is checked once, where the value is made.
-/

namespace FiniteDomain

structure Extent where
  length : Int
  nonneg : 0 ≤ length
  le_maxValue : length ≤ Word.maxValue
deriving DecidableEq, Repr

namespace Extent

def ofInt? (n : Int) : Option Extent :=
  if h : 0 ≤ n ∧ n ≤ Word.maxValue then some ⟨n, h.1, h.2⟩ else none

def promised (n : Int) : Except Fault Extent :=
  match ofInt? n with
  | some e => .ok e
  | none => .error .assertion

/-- The extent nearest to a number. -/
def clamp (n : Int) : Extent where
  length := max 0 (min n Word.maxValue)
  nonneg := by omega
  le_maxValue := by simp only [Word.maxValue]; omega

theorem ofInt?_eq_some_iff {n : Int} {e : Extent} : ofInt? n = some e ↔ e.length = n := by
  unfold ofInt?
  split
  · rename_i h
    obtain ⟨m, _, _⟩ := e
    simp [eq_comm]
  · rename_i h
    simp only [reduceCtorEq, false_iff]
    rintro rfl
    exact h ⟨e.nonneg, e.le_maxValue⟩

end Extent

end FiniteDomain
