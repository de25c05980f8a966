import FiniteDomain.Fault

/-!
# Tables

A table is a sequence whose entries are addressed by keys handed out in order of insertion: the
first entry has key `0`.  Reading at a key that was never handed out is a fault.
-/

namespace FiniteDomain

abbrev Table (α : Type u) := Array α

namespace Table

variable {α : Type u}

/-- Greatest key that can be written. -/
def greatestKey : Nat := 4294967295

/-- A number used as a key. -/
def key (n : Nat) : Except Fault Nat :=
  if n ≤ greatestKey then .ok n else .error .assertion

def nextKey (t : Table α) : Nat :=
  t.size

def holds (t : Table α) (k : Nat) : Bool :=
  k < t.size

def fetch (t : Table α) (k : Nat) : Except Fault α :=
  match t[k]? with
  | some a => .ok a
  | none => .error (.outOfBounds t.size k)

def replace (t : Table α) (k : Nat) (a : α) : Except Fault (Table α) :=
  if k < t.size then .ok (t.setIfInBounds k a) else .error (.outOfBounds t.size k)

/-- Appends copies of `a` until `k` is a key. -/
def fill (t : Table α) (k : Nat) (a : α) : Table α :=
  t ++ Array.replicate (k + 1 - t.size) a

def keys (t : Table α) : List Nat :=
  List.range t.size

/-- The entries with their keys, in order. -/
def entries (t : Table α) : List (Nat × α) :=
  t.toList.zipIdx.map fun (a, k) => (k, a)

theorem fetch_eq_ok_iff {t : Table α} {k : Nat} {a : α} : t.fetch k = .ok a ↔ t[k]? = some a := by
  unfold fetch
  split <;> simp_all

theorem fetch_of_lt {t : Table α} {k : Nat} (h : k < t.size) : t.fetch k = .ok t[k] := by
  simp [fetch, h]

@[simp]
theorem size_fill (t : Table α) (k : Nat) (a : α) : (t.fill k a).size = max t.size (k + 1) := by
  simp [fill]
  omega

theorem getElem?_fill_of_lt {t : Table α} {i : Nat} (h : i < t.size) (k : Nat) (a : α) :
    (t.fill k a)[i]? = t[i]? := by
  simp [fill, Array.getElem?_append, h]

end Table

end FiniteDomain
