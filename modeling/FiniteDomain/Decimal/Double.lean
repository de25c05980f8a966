/-!
# Doubles as exact numbers

A finite double is a sign, a mantissa and a power of two.  Going back, an exact quotient is rounded
to the nearest double, and to the one with an even mantissa where two are equally near.
-/

namespace FiniteDomain.Decimal

inductive Double
  | nan
  | infinite (isNegative : Bool)
  | finite (isNegative : Bool) (mantissa : Nat) (exponent : Int)
deriving DecidableEq, Repr

def twoPow (n : Nat) : Nat :=
  Nat.pow 2 n

def tenPow (n : Nat) : Nat :=
  Nat.pow 10 n

namespace Double

def signBit : Nat :=
  twoPow 63

/-- The unit of the exponent among the bits of a double, which is also the leading bit that the
mantissa of a normal double does not show. -/
def hiddenBit : Nat :=
  twoPow 52

/-- The exponent field of the infinities and of what is no number. -/
def topExponent : Nat :=
  2047

def ofFloat (f : Float) : Double :=
  let bits := f.toBits.toNat
  let isNegative := signBit ≤ bits
  let exponentField : Nat := bits / hiddenBit % (topExponent + 1)
  let fraction : Nat := bits % hiddenBit
  if exponentField = topExponent then
    if fraction = 0 then infinite isNegative else nan
  else if exponentField = 0 then
    finite isNegative fraction (-1074)
  else
    finite isNegative (hiddenBit + fraction) ((exponentField : Int) - 1075)

/-- The quotient rounded to the nearest integer, a half to the even neighbour. -/
def roundDiv (num den : Nat) : Nat :=
  let q := num / den
  let r := num % den
  if 2 * r < den then q
  else if den < 2 * r then q + 1
  else if q % 2 = 0 then q else q + 1

/-- The power of two that scales `num / den` to a mantissa of 53 bits, as far as doubles reach. -/
def scale (num den : Nat) : Int :=
  let guess : Int := (num.log2 : Int) - den.log2 - 53
  let quotient :=
    if 0 ≤ guess then num / (den * twoPow guess.toNat) else num * twoPow (-guess).toNat / den
  max (-1074) (if 2 * hiddenBit ≤ quotient then guess + 1 else guess)

/-- The double nearest to `num / den`, as its bits without the sign. -/
def nearestBits (num den : Nat) : Nat :=
  if num = 0 then
    0
  else
    let e := scale num den
    let m :=
      if 0 ≤ e then roundDiv num (den * twoPow e.toNat)
      else roundDiv (num * twoPow (-e).toNat) den
    -- the leading bit of the mantissa is added to the exponent field, and so is a carry
    min ((e + 1074).toNat * hiddenBit + m) (topExponent * hiddenBit)

def ofBits (isNegative : Bool) (bits : Nat) : Float :=
  Float.ofBits (UInt64.ofNat (if isNegative then signBit + bits else bits))

def toFloat : Double → Float
  | nan => 0.0 / 0.0
  | infinite isNegative => ofBits isNegative (topExponent * hiddenBit)
  | finite isNegative m e =>
    ofBits isNegative (nearestBits (m * twoPow e.toNat) (twoPow (-e).toNat))

def floor (m : Nat) (e : Int) : Nat :=
  m * twoPow e.toNat / twoPow (-e).toNat

def ceil (m : Nat) (e : Int) : Nat :=
  (m * twoPow e.toNat + twoPow (-e).toNat - 1) / twoPow (-e).toNat

end Double

end FiniteDomain.Decimal
