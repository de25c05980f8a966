import FiniteDomain.Store

/-!
# Updates

An update acts on a store.  It ends with a value, or with the wipeout that failed the store, and in
both cases with the store that it leaves behind; or it faults, and then there is no store.
-/

namespace FiniteDomain

abbrev Update := ExceptT Wipeout (StateT Store (Except Fault))

namespace Update

/-- Runs an update on a store. -/
def apply {α : Type} (u : Update α) (s : Store) : Except Fault (Except Wipeout α × Store) :=
  u.run.run s

def ofFunction {α : Type} (f : Store → Except Fault (Except Wipeout α × Store)) : Update α :=
  ExceptT.mk (StateT.mk f)

/-- Looks at the store and leaves it as it is. -/
def read {α : Type} (f : Store → Except Fault α) : Update α :=
  ofFunction fun s =>
    match f s with
    | .ok a => .ok (.ok a, s)
    | .error e => .error e

def fault {α : Type} (f : Fault) : Update α :=
  ofFunction fun _ => .error f

def narrow (x : Var) (lb ub : Int) : Update Bool :=
  ofFunction fun s => s.narrow x lb ub

def setLower (x : Var) (lb : Int) : Update Bool :=
  narrow x lb Word.greatest

def setUpper (x : Var) (ub : Int) : Update Bool :=
  narrow x Word.least ub

def assign (x : Var) (value : Int) : Update Bool :=
  narrow x value value

def wipeOut {α : Type} (x : Var) : Update α :=
  ofFunction fun s =>
    match s.wipeOut x with
    | .ok (w, s) => .ok (.error w, s)
    | .error e => .error e

@[simp]
theorem apply_pure {α : Type} (a : α) (s : Store) : (pure a : Update α).apply s = .ok (.ok a, s) :=
  rfl

theorem apply_bind {α β : Type} (u : Update α) (k : α → Update β) (s : Store) :
    (u >>= k).apply s =
      match u.apply s with
      | .ok (.ok a, t) => (k a).apply t
      | .ok (.error w, t) => .ok (.error w, t)
      | .error f => .error f := by
  unfold apply
  simp only [ExceptT.run_bind, StateT.run_bind]
  cases h : StateT.run (ExceptT.run u) s with
  | error f => rfl
  | ok r =>
      obtain ⟨a, t⟩ := r
      cases a <;> rfl

theorem apply_map {α β : Type} (f : α → β) (u : Update α) (s : Store) :
    (f <$> u).apply s = (u.apply s).map fun (reply, t) => (reply.map f, t) := by
  rw [← bind_pure_comp, apply_bind]
  cases u.apply s with
  | error e => rfl
  | ok r =>
      obtain ⟨reply, t⟩ := r
      cases reply <;> rfl

theorem apply_discard {α : Type} (u : Update α) (s : Store) :
    (discard u : Update Unit).apply s =
      (u.apply s).map fun (reply, t) => (reply.map fun _ => (), t) :=
  apply_map (fun _ => ()) u s

@[simp]
theorem apply_read {α : Type} (f : Store → Except Fault α) (s : Store) :
    (read f).apply s = (f s).map fun a => (.ok a, s) := by
  unfold read
  rw [apply, ofFunction]
  cases h : f s <;> simp [ExceptT.run, StateT.run, ExceptT.mk, StateT.mk, h, Except.map]

@[simp]
theorem apply_ofFunction {α : Type} (f : Store → Except Fault (Except Wipeout α × Store))
    (s : Store) : (ofFunction f).apply s = f s :=
  rfl

end Update

end FiniteDomain
