import FiniteDomain.Decimal.Shortest

/-!
# Decimals with a fixed number of places

The exact value of a double is rounded to a given number of places, a half to the even neighbour.
-/

namespace FiniteDomain.Decimal

def renderFixed (places : Nat) (f : Float) : String :=
  match Double.ofFloat f with
  | .nan => "NaN"
  | .infinite isNegative => if isNegative then "-inf" else "inf"
  | .finite isNegative m e =>
    let units := Double.roundDiv (m * tenPow places * twoPow e.toNat) (twoPow (-e).toNat)
    let body := (Scaled.mk units (-(places : Int))).positional
    if isNegative then "-" ++ body else body

end FiniteDomain.Decimal
