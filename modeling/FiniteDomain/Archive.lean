import FiniteDomain.Choice
import FiniteDomain.Json

/-!
# Archived choices

The archive of a choice is what its brancher needs to make the same choice again; the number of
alternatives is not part of it.  An archive is written as a JSON object without blanks.  It is read
from an object whose members stand in any order among others, or from an array of the four numbers.
-/

namespace FiniteDomain

structure Archive where
  brancher : Nat
  pos : Nat
  min : Int
  max : Int
deriving DecidableEq, Repr

def Choice.archive (c : Choice) : Archive :=
  ⟨c.brancher, c.pos, c.min, c.max⟩

namespace Archive

/-- The archive with the given numbers, if each has its range. -/
def ofNumbers (brancher pos min max : Int) : Option Archive :=
  let unsigned := Numeral.Range.unsignedWord
  let signed := Numeral.Range.word
  if unsigned.holds brancher && unsigned.holds pos && signed.holds min && signed.holds max then
    some ⟨brancher.toNat, pos.toNat, min, max⟩
  else
    none

/-- The number under a name, which must be given exactly once. -/
def member (members : List (Option (List Char) × Json)) (name : List Char) : Option Int :=
  match members.filter fun m => m.1 = some name with
  | [(_, .integer n)] => some n
  | _ => none

/-- Members with other names are passed over, but every name must make a text. -/
def ofJson : Json → Option Archive
  | .array [.integer brancher, .integer pos, .integer min, .integer max] =>
    ofNumbers brancher pos min max
  | .object members => do
    if members.any fun m => m.1.isNone then
      none
    let brancher ← member members "brancher".toList
    let pos ← member members "pos".toList
    let min ← member members "min".toList
    let max ← member members "max".toList
    ofNumbers brancher pos min max
  | _ => none

def read (text : List Char) : Option Archive := do
  ofJson (← Json.read text)

def render (a : Archive) : List Char :=
  "\x7b\"brancher\":".toList ++ Numeral.digits a.brancher ++
    ",\"pos\":".toList ++ Numeral.digits a.pos ++
    ",\"min\":".toList ++ Numeral.ofInt a.min ++
    ",\"max\":".toList ++ Numeral.ofInt a.max ++ "\x7d".toList

end Archive

end FiniteDomain
