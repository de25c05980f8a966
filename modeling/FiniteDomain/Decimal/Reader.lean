import FiniteDomain.Decimal.Double
import FiniteDomain.Numeral

/-!
# Reading decimals

A decimal is an optional sign, digits with at most one point among or around them, and an optional
power of ten.  The words `inf`, `infinity` and `nan` are decimals as well, in any case of letters.
-/

namespace FiniteDomain.Decimal

/-- The double nearest to `digits * 10 ^ exponent`.  Numbers far out of reach are answered without
computing the power. -/
def nearest (isNegative : Bool) (digits : Nat) (exponent : Int) : Float :=
  let size : Int := (Numeral.digits digits).length + exponent
  let bits :=
    if digits = 0 ∨ size < -330 then 0
    else if 320 < size then Double.topExponent * Double.hiddenBit
    else Double.nearestBits (digits * tenPow exponent.toNat) (tenPow (-exponent).toNat)
  Double.ofBits isNegative bits

/-- The power of ten at the end of a decimal: nothing, or a mark, a sign and digits. -/
def readExponent : List Char → Option Int
  | [] => some 0
  | mark :: rest =>
    if mark = 'e' ∨ mark = 'E' then
      let unsigned (cs : List Char) : Option Nat :=
        if !cs.isEmpty && cs.all Numeral.isDigit then some (Numeral.value cs) else none
      match rest with
      | '-' :: cs => (unsigned cs).map fun n => -(n : Int)
      | '+' :: cs => (unsigned cs).map Int.ofNat
      | cs => (unsigned cs).map Int.ofNat
    else
      none

def readUnsigned (isNegative : Bool) (cs : List Char) : Option Float :=
  let word := String.ofList (cs.map Char.toLower)
  if word = "inf" ∨ word = "infinity" then
    some (Double.infinite isNegative).toFloat
  else if word = "nan" then
    some Double.nan.toFloat
  else
    let (whole, rest) := Numeral.spanDigits cs
    let (fraction, rest) :=
      match rest with
      | '.' :: rest => Numeral.spanDigits rest
      | rest => ([], rest)
    if whole.isEmpty && fraction.isEmpty then
      none
    else
      (readExponent rest).map fun e =>
        nearest isNegative (Numeral.value (whole ++ fraction)) (e - fraction.length)

def read : List Char → Option Float
  | '-' :: cs => readUnsigned true cs
  | '+' :: cs => readUnsigned false cs
  | cs => readUnsigned false cs

end FiniteDomain.Decimal
