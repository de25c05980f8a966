import FiniteDomain.Numeral

/-!
# JSON texts

Reading of JSON texts into values.  Only integers keep their value, since nothing else is read from
such a text.  The escapes of a text may name code units that make no character; such a text still
separates values correctly, but has no content.
-/

namespace FiniteDomain

inductive Json
  | null
  | bool (b : Bool)
  | integer (n : Int)
  | decimal
  | text (content : Option (List Char))
  | array (items : List Json)
  | object (members : List (Option (List Char) × Json))
deriving Repr

namespace Json

def isBlank (c : Char) : Bool :=
  c = ' ' || c = '\t' || c = '\n' || c = '\r'

def skipBlanks (cs : List Char) : List Char :=
  cs.dropWhile isBlank

def hexValue? (c : Char) : Option Nat :=
  if '0' ≤ c ∧ c ≤ '9' then some (c.toNat - '0'.toNat)
  else if 'a' ≤ c ∧ c ≤ 'f' then some (c.toNat - 'a'.toNat + 10)
  else if 'A' ≤ c ∧ c ≤ 'F' then some (c.toNat - 'A'.toNat + 10)
  else none

/-- A part of a text: a character, or a code unit that was written as an escape. -/
inductive Piece
  | char (c : Char)
  | unit (n : Nat)
deriving Repr

def pieces : List Char → Option (List Piece × List Char)
  | [] => none
  | '"' :: rest => some ([], rest)
  | '\\' :: 'u' :: a :: b :: c :: d :: rest => do
    let a ← hexValue? a
    let b ← hexValue? b
    let c ← hexValue? c
    let d ← hexValue? d
    let (ps, rest) ← pieces rest
    return (.unit (((a * 16 + b) * 16 + c) * 16 + d) :: ps, rest)
  | '\\' :: c :: rest => do
    let c ← match c with
      | '"' => some '"'
      | '\\' => some '\\'
      | '/' => some '/'
      | 'b' => some '\x08'
      | 'f' => some '\x0c'
      | 'n' => some '\n'
      | 'r' => some '\r'
      | 't' => some '\t'
      | _ => none
    let (ps, rest) ← pieces rest
    return (.char c :: ps, rest)
  | c :: rest =>
    if c.toNat < 32 ∨ c = '\\' then
      none
    else do
      let (ps, rest) ← pieces rest
      return (.char c :: ps, rest)

/-- The characters of a text.  The units of a surrogate pair must stand side by side. -/
def content : List Piece → Option (List Char)
  | [] => some []
  | .char c :: rest => (content rest).map (c :: ·)
  | .unit high :: .unit low :: rest =>
    if 0xD800 ≤ high ∧ high < 0xDC00 then
      if 0xDC00 ≤ low ∧ low < 0xE000 then
        (content rest).map (Char.ofNat (0x10000 + (high - 0xD800) * 0x400 + (low - 0xDC00)) :: ·)
      else
        none
    else if 0xDC00 ≤ high ∧ high < 0xE000 then
      none
    else
      (content (.unit low :: rest)).map (Char.ofNat high :: ·)
  | .unit n :: rest =>
    if 0xD800 ≤ n ∧ n < 0xE000 then none else (content rest).map (Char.ofNat n :: ·)

def fraction : List Char → Option (Bool × List Char)
  | '.' :: rest =>
    let (ds, rest) := Numeral.spanDigits rest
    if ds.isEmpty then none else some (true, rest)
  | rest => some (false, rest)

def power : List Char → Option (Bool × List Char)
  | c :: rest =>
    if c = 'e' ∨ c = 'E' then
      let rest := match rest with
        | '+' :: rest => rest
        | '-' :: rest => rest
        | rest => rest
      let (ds, rest) := Numeral.spanDigits rest
      if ds.isEmpty then none else some (true, rest)
    else
      some (false, c :: rest)
  | [] => some (false, [])

/-- A number without its sign: the value of its digits, whether it is an integer, and what follows.
A number of several digits does not begin with a zero. -/
def magnitude (cs : List Char) : Option (Nat × Bool × List Char) := do
  let (ds, rest) := Numeral.spanDigits cs
  if ds.isEmpty || (ds.head? = some '0' && ds.length ≠ 1) then
    none
  let (hasFraction, rest) ← fraction rest
  let (hasPower, rest) ← power rest
  return (Numeral.value ds, !hasFraction && !hasPower, rest)

def number : List Char → Option (Json × List Char)
  | '-' :: cs => do
    let (n, isInteger, rest) ← magnitude cs
    return (if isInteger && n ≠ 0 then .integer (-(n : Int)) else .decimal, rest)
  | cs => do
    let (n, isInteger, rest) ← magnitude cs
    return (if isInteger then .integer n else .decimal, rest)

mutual

def value : Nat → List Char → Option (Json × List Char)
  | 0, _ => none
  | fuel + 1, cs =>
    match skipBlanks cs with
    | 'n' :: 'u' :: 'l' :: 'l' :: rest => some (.null, rest)
    | 't' :: 'r' :: 'u' :: 'e' :: rest => some (.bool true, rest)
    | 'f' :: 'a' :: 'l' :: 's' :: 'e' :: rest => some (.bool false, rest)
    | '"' :: rest => do
      let (ps, rest) ← pieces rest
      return (.text (content ps), rest)
    | '[' :: rest =>
      match skipBlanks rest with
      | ']' :: rest => some (.array [], rest)
      | _ => do
        let (items, rest) ← items fuel rest
        return (.array items, rest)
    | '{' :: rest =>
      match skipBlanks rest with
      | '}' :: rest => some (.object [], rest)
      | _ => do
        let (members, rest) ← members fuel rest
        return (.object members, rest)
    | cs => number cs

def items : Nat → List Char → Option (List Json × List Char)
  | 0, _ => none
  | fuel + 1, cs => do
    let (item, rest) ← value fuel cs
    match skipBlanks rest with
    | ',' :: rest =>
      let (more, rest) ← items fuel rest
      return (item :: more, rest)
    | ']' :: rest => return ([item], rest)
    | _ => none

def members : Nat → List Char → Option (List (Option (List Char) × Json) × List Char)
  | 0, _ => none
  | fuel + 1, cs =>
    match skipBlanks cs with
    | '"' :: rest => do
      let (ps, rest) ← pieces rest
      match skipBlanks rest with
      | ':' :: rest =>
        let (item, rest) ← value fuel rest
        match skipBlanks rest with
        | ',' :: rest =>
          let (more, rest) ← members fuel rest
          return ((content ps, item) :: more, rest)
        | '}' :: rest => return ([(content ps, item)], rest)
        | _ => none
      | _ => none
    | _ => none

end

/-- Reads a whole text as one value.  Each of the reading functions calls another one on a shorter
text, or passes the text on once, so twice the length is fuel enough. -/
def read (cs : List Char) : Option Json := do
  let (v, rest) ← value (2 * cs.length + 2) cs
  if (skipBlanks rest).isEmpty then some v else none

end Json

end FiniteDomain
