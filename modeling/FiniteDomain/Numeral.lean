/-!
# Decimal numerals

Writing integers in base ten, and reading them back within a range.  Main statement: `value_digits`,
the digits of a number denote it.
-/

namespace FiniteDomain.Numeral

def digitChar (d : Nat) : Char :=
  Char.ofNat ('0'.toNat + d)

def isDigit (c : Char) : Bool :=
  '0' ≤ c && c ≤ '9'

def digitValue (c : Char) : Nat :=
  c.toNat - '0'.toNat

def digits (n : Nat) : List Char :=
  if n < 10 then [digitChar n] else digits (n / 10) ++ [digitChar (n % 10)]

def value (cs : List Char) : Nat :=
  cs.foldl (fun n c => 10 * n + digitValue c) 0

def ofInt (n : Int) : List Char :=
  if n < 0 then '-' :: digits n.natAbs else digits n.natAbs

def spanDigits (cs : List Char) : List Char × List Char :=
  (cs.takeWhile isDigit, cs.dropWhile isDigit)

/-- The integers of a range that a numeral may denote. -/
structure Range where
  least : Int
  greatest : Int
deriving DecidableEq, Repr

namespace Range

def word : Range := ⟨-2147483648, 2147483647⟩

def unsignedWord : Range := ⟨0, 4294967295⟩

def unsignedLong : Range := ⟨0, 18446744073709551615⟩

def holds (r : Range) (n : Int) : Bool :=
  r.least ≤ n && n ≤ r.greatest

end Range

/-- Reads a whole text as an integer of the range: an optional sign and one digit or more.  A minus
sign is a sign only where the range has negative numbers. -/
def read (r : Range) (cs : List Char) : Option Int :=
  let unsigned (cs : List Char) : Option Nat :=
    if !cs.isEmpty && cs.all isDigit then some (value cs) else none
  let n? : Option Int :=
    match cs with
    | '+' :: rest => (unsigned rest).map Int.ofNat
    | '-' :: rest => if r.least < 0 then (unsigned rest).map fun n => -(n : Int) else none
    | _ => (unsigned cs).map Int.ofNat
  n?.filter r.holds

theorem digitValue_digitChar {d : Nat} (h : d < 10) : digitValue (digitChar d) = d := by
  have all : ∀ d < 10, digitValue (digitChar d) = d := by decide
  exact all d h

theorem isDigit_digitChar {d : Nat} (h : d < 10) : isDigit (digitChar d) = true := by
  have all : ∀ d < 10, isDigit (digitChar d) = true := by decide
  exact all d h

theorem value_append_singleton (cs : List Char) (c : Char) :
    value (cs ++ [c]) = 10 * value cs + digitValue c := by
  simp [value]

theorem value_digits (n : Nat) : value (digits n) = n := by
  induction n using Nat.strongRecOn with
  | ind n ih =>
      rw [digits]
      split
      · rename_i h
        simp [value, digitValue_digitChar h]
      · rw [value_append_singleton, ih (n / 10) (by omega),
          digitValue_digitChar (by omega)]
        omega

theorem all_isDigit_digits (n : Nat) : (digits n).all isDigit = true := by
  induction n using Nat.strongRecOn with
  | ind n ih =>
      rw [digits]
      split
      · rename_i h
        simp [isDigit_digitChar h]
      · rw [List.all_append, ih (n / 10) (by omega)]
        simp [isDigit_digitChar (show n % 10 < 10 by omega)]

theorem digits_ne_nil (n : Nat) : digits n ≠ [] := by
  rw [digits]
  split <;> simp

end FiniteDomain.Numeral
