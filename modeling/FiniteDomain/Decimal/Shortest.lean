import FiniteDomain.Decimal.Double
import FiniteDomain.Numeral

/-!
# Shortest decimal text of a double

Among the decimals that read back as a double, those with the fewest digits are looked for, and of
them the one nearest to the double.  The text is always positional, and a whole number has no point.
-/

namespace FiniteDomain.Decimal

/-- The number `digits * 10 ^ exponent`. -/
structure Scaled where
  digits : Nat
  exponent : Int
deriving DecidableEq, Repr

namespace Scaled

/-- Drops zeros at the end of the digits. -/
def trim : Nat → Scaled → Scaled
  | 0, d => d
  | fuel + 1, d =>
    if d.digits % 10 = 0 ∧ d.digits ≠ 0 then trim fuel ⟨d.digits / 10, d.exponent + 1⟩ else d

def positional (d : Scaled) : String :=
  let cs := Numeral.digits d.digits
  if 0 ≤ d.exponent then
    String.ofList (cs ++ List.replicate d.exponent.toNat '0')
  else
    let places := (-d.exponent).toNat
    let cs := List.replicate (places + 1 - cs.length) '0' ++ cs
    let whole := cs.length - places
    String.ofList (cs.take whole ++ '.' :: cs.drop whole)

end Scaled

/-- The greatest power of ten that is at most `num / den`, for a positive quotient. -/
def magnitude (num den : Nat) : Int :=
  if den ≤ num then
    (Numeral.digits (num / den)).length - 1
  else
    let rec go : Nat → Nat → Int
      | 0, k => -(k : Int)
      | fuel + 1, k => if den ≤ num * tenPow k then -(k : Int) else go fuel (k + 1)
    go 400 1

/-- The decimal for the double `mantissa * 2 ^ exponent`, which is positive.  All quantities are
integers in units of a quarter of the distance to the next double. -/
def shortest (mantissa : Nat) (exponent : Int) : Scaled :=
  let e := exponent - 2
  let unit := twoPow e.toNat
  let den := twoPow (-e).toNat
  let middle := 4 * mantissa * unit
  -- just above a power of two the doubles below are half as far apart
  let below := if mantissa = Double.hiddenBit ∧ -1074 < exponent then 1 else 2
  let low := middle - below * unit
  let high := middle + 2 * unit
  let closed := mantissa % 2 = 0
  let reads (c : Nat) : Bool := if closed then low ≤ c && c ≤ high else low < c && c < high
  let top := magnitude middle den
  let rec go : Nat → Nat → Scaled
    | 0, _ => ⟨0, 0⟩
    | fuel + 1, n =>
      let s : Int := top + 1 - n
      -- the value is `middle / den`, the grid has the step `10 ^ s`
      let step := tenPow s.toNat * den
      let scaled := tenPow (-s).toNat
      let c := middle * scaled / step
      let fits (c : Nat) : Bool :=
        if 0 ≤ s then reads (c * step) else
          if closed then low * scaled ≤ c * den && c * den ≤ high * scaled
          else low * scaled < c * den && c * den < high * scaled
      let remainder := middle * scaled - c * step
      match fits c, fits (c + 1) with
      | true, true => if 2 * remainder < step then ⟨c, s⟩ else ⟨c + 1, s⟩
      | true, false => ⟨c, s⟩
      | false, true => ⟨c + 1, s⟩
      | false, false => go fuel (n + 1)
  (go 20 1).trim 20

def render (f : Float) : String :=
  match Double.ofFloat f with
  | .nan => "NaN"
  | .infinite isNegative => if isNegative then "-inf" else "inf"
  | .finite isNegative m e =>
    let body := if m = 0 then "0" else (shortest m e).positional
    if isNegative then "-" ++ body else body

end FiniteDomain.Decimal
