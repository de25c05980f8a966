import FiniteDomain.Fault

/-!
# Machine words

Values are mathematical integers.  Where the solver computes with machine words, the result is
checked: it is the mathematical one, or the computation faults.  Values of domains stay within
`minValue` and `maxValue`, a quarter of the word's range, so that a bound can be shifted by an
extent without leaving it.
-/

namespace FiniteDomain.Word

def least : Int := -2147483648

def greatest : Int := 2147483647

def maxValue : Int := 536870912

def minValue : Int := -536870912

def fit (n : Int) : Except Fault Int :=
  if least ≤ n ∧ n ≤ greatest then .ok n else .error .overflow

def fitLong (n : Int) : Except Fault Int :=
  if -9223372036854775808 ≤ n ∧ n ≤ 9223372036854775807 then .ok n else .error .overflow

theorem fit_of_mem {n : Int} (hl : least ≤ n) (hg : n ≤ greatest) : fit n = .ok n := by
  simp [fit, hl, hg]

theorem fit_eq_ok_iff {n m : Int} : fit n = .ok m ↔ n = m ∧ least ≤ n ∧ n ≤ greatest := by
  unfold fit
  split
  · simp_all
  · simp only [reduceCtorEq, false_iff]
    rintro ⟨-, h⟩
    contradiction

end FiniteDomain.Word
