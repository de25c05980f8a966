import FiniteDomain.Brancher.Selection

/-!
# Labelling

A labelling gives variables the least, or the greatest, value of their domains.  Each choice has two
alternatives: the variable takes that value, or the value is excluded.
-/

namespace FiniteDomain

inductive Preference
  | least
  | greatest
deriving DecidableEq, Repr

structure Labelling where
  vars : Table Var
  selection : Selection
  preference : Preference
  /-- All variables before this position are bound. -/
  cursor : Nat
deriving DecidableEq, Repr

namespace Labelling

def ofVars (vars : List Var) (selection : Selection) (preference : Preference) : Labelling :=
  ⟨vars.toArray, selection, preference, 0⟩

def ascending (vars : List Var) : Labelling :=
  ofVars vars .first .least

def descending (vars : List Var) : Labelling :=
  ofVars vars .first .greatest

def undecided (b : Labelling) (s : Store) (pos : Nat) : Except Fault Bool := do
  return !(← s.isBound (← b.vars.fetch pos))

def preferred (b : Labelling) (c : Choice) : Int :=
  match b.preference with
  | .least => c.min
  | .greatest => c.max

def status (b : Labelling) (s : Store) : Except Fault (Bool × Labelling) := do
  let i ← Brancher.firstUndecided (b.undecided s) (b.vars.size - b.cursor) b.cursor
  return (i < b.vars.size, { b with cursor := i })

def choose (b : Labelling) (id : BrancherId) (s : Store) : Except Fault (Choice × Labelling) := do
  match ← b.selection.pick b.vars b.cursor s (b.undecided s) with
  | none => .error (.undecidedExpected .labelling)
  | some pos =>
    let d ← s.domain (← b.vars.fetch pos)
    return (.binary id pos d.lb d.ub, b)

def commit (b : Labelling) (c : Choice) (alternative : Nat) : Update Unit := do
  let x ← Update.read fun _ => b.vars.fetch c.pos
  let v := b.preferred c
  if alternative = 0 then
    discard <| Update.assign x v
  else
    match b.preference with
    | .least => discard <| Update.setLower x (← Update.read fun _ => Word.fit (v + 1))
    | .greatest => discard <| Update.setUpper x (← Update.read fun _ => Word.fit (v - 1))

def describe (b : Labelling) (c : Choice) (alternative : Nat) : String :=
  if alternative = 0 then s!"x[{c.pos}] = {b.preferred c}" else s!"x[{c.pos}] != {b.preferred c}"

instance : Brancher Labelling where
  status := status
  choose := choose
  restore b id pos min max := .ok do
    Brancher.checkPos id pos b.vars.size
    return .binary id pos min max
  commit := commit
  describe b c alternative := .ok (b.describe c alternative)

end Labelling

end FiniteDomain
