import FiniteDomain.Proofs.Calling
import FiniteDomain.Proofs.Requests
import FiniteDomain.Proofs.Stepping

/-!
# Recursive search

The search of a tree as it is thought of: a node is propagated, and unless it fails or is a solution,
the alternatives of its choice are searched one after the other, each in a copy of the node, and the
best value is handed on from each to the next.  There is no stack, and there are no calls.

A search by steps does the same.  The open nodes on its stack are what is left of the recursion, and
the trail that starts with a visit comes back to the stack that it started with, once it has found
what the recursion finds below the node.  So calls return the solutions of the recursion in their
order, and the counters end at its totals.
-/

namespace FiniteDomain

/-- What is counted of a search, apart from the depth. -/
@[ext]
structure Effort where
  nodes : Nat
  failures : Nat
  decisions : Nat
  solutions : Nat
  propagations : Nat
  retired : Nat
deriving DecidableEq, Repr

namespace Effort

instance : Zero Effort :=
  ⟨⟨0, 0, 0, 0, 0, 0⟩⟩

instance : Add Effort :=
  ⟨fun a b =>
    { nodes := a.nodes + b.nodes
      failures := a.failures + b.failures
      decisions := a.decisions + b.decisions
      solutions := a.solutions + b.solutions
      propagations := a.propagations + b.propagations
      retired := a.retired + b.retired }⟩

/-- One node that failed. -/
def failure : Effort :=
  ⟨1, 1, 0, 0, 0, 0⟩

/-- One node in which a choice was made. -/
def decision : Effort :=
  ⟨1, 0, 1, 0, 0, 0⟩

/-- One node that is a solution. -/
def solution : Effort :=
  ⟨1, 0, 0, 1, 0, 0⟩

/-- The runs and the retirements between two states of an engine. -/
def ofEngines {P : Type} (before after : Engine P) : Effort :=
  ⟨0, 0, 0, 0, after.runs - before.runs, after.retirements - before.retirements⟩

variable (a b c : Effort)

theorem add_def :
    a + b = ⟨a.nodes + b.nodes, a.failures + b.failures, a.decisions + b.decisions,
      a.solutions + b.solutions, a.propagations + b.propagations, a.retired + b.retired⟩ :=
  rfl

theorem zero_def : (0 : Effort) = ⟨0, 0, 0, 0, 0, 0⟩ :=
  rfl

instance : AddCommMonoid Effort where
  add_assoc a b c := by simp [add_def, Nat.add_assoc]
  zero_add a := by simp [add_def, zero_def]
  add_zero a := by simp [add_def, zero_def]
  add_comm a b := by simp [add_def, Nat.add_comm]
  nsmul := nsmulRec

end Effort

def Counters.effort (c : Counters) : Effort :=
  ⟨c.nodes, c.failures, c.decisions, c.solutions, c.propagations, c.retired⟩

/-- What a recursive search finds below a node: the solutions in their order, the best value when it
is done, and the work that it has taken. -/
structure Findings where
  solutions : List Solution
  best : Option Int
  effort : Effort
deriving DecidableEq, Repr

namespace Findings

/-- Nothing is found, at some cost. -/
def nothing (best : Option Int) (effort : Effort) : Findings :=
  ⟨[], best, effort⟩

/-- One search after another, the second of which starts from the best value of the first. -/
def followedBy (first second : Findings) : Findings :=
  ⟨first.solutions ++ second.solutions, second.best, first.effort + second.effort⟩

end Findings

section Recursion

variable {P B : Type}

/-- Narrows a node to the values that are better than the best one, if there is one. -/
def Objective.impose (objective : Option Objective) (best : Option Int) (n : Node P B) :
    Except Fault (Option Wipeout × Node P B) :=
  match objective, best with
  | some objective, some best => do
    match ← n.update (objective.improveOn best) with
    | (.error w, n) => return (some w, n)
    | (.ok _, n) => return (none, n)
  | _, _ => return (none, n)

/-- The best value once a solution is found, if it was this one before. -/
def Objective.attained (objective : Option Objective) (best : Option Int) (s : Store) :
    Except Fault (Option Int) :=
  match objective with
  | none => return best
  | some objective => return some (← objective.bestIn s)

variable [Brancher B]

/-- A trace names each alternative before it is committed. -/
def Node.announce (n : Node P B) (verbosity : Level) (c : Choice) (alternative : Nat) :
    Except Fault Unit :=
  if verbosity = .trace then
    (n.describe c alternative).map fun _ => ()
  else
    .ok ()

/-- Searches the given alternatives of a choice from left to right, each in a copy of the node.  An
alternative whose commit fails is passed over. -/
def solveAll (verbosity : Level) (solve : Option Int → Node P B → Except Fault Findings)
    (n : Node P B) (c : Choice) : List Nat → Option Int → Except Fault Findings
  | [], best => return .nothing best 0
  | alternative :: rest, best => do
    n.announce verbosity c alternative
    match ← n.commit c alternative with
    | (.error _, _) =>
      return (Findings.nothing best .failure).followedBy
        (← solveAll verbosity solve n c rest best)
    | (.ok (), child) =>
      let first ← solve best child
      return first.followedBy (← solveAll verbosity solve n c rest first.best)

theorem solveAll_mono {verbosity : Level}
    {solve solve' : Option Int → Node P B → Except Fault Findings}
    (hmono : ∀ {best : Option Int} {n : Node P B} {f : Findings}, solve best n = .ok f →
      solve' best n = .ok f)
    {n : Node P B} {c : Choice} {alternatives : List Nat} {best : Option Int} {f : Findings}
    (h : solveAll verbosity solve n c alternatives best = .ok f) :
    solveAll verbosity solve' n c alternatives best = .ok f := by
  induction alternatives generalizing best f with
  | nil => exact h
  | cons alternative rest ih =>
      unfold solveAll at h ⊢
      obtain ⟨_, hannounce, hcommitted⟩ := Fault.bind_eq_ok_iff.mp h
      obtain ⟨⟨reply, child⟩, hcommit, hreply⟩ := Fault.bind_eq_ok_iff.mp hcommitted
      rw [hannounce, hcommit]
      simp only [bind, Except.bind]
      cases reply with
      | error w =>
          obtain ⟨later, hlater, hf⟩ := Fault.bind_eq_ok_iff.mp hreply
          simp only [ih hlater]
          exact hf
      | ok u =>
          obtain ⟨first, hfirst, hrest⟩ := Fault.bind_eq_ok_iff.mp hreply
          obtain ⟨later, hlater, hf⟩ := Fault.bind_eq_ok_iff.mp hrest
          simp only [hmono hfirst, ih hlater]
          exact hf

variable [Propagator P]

/-- Searches below a node, in a tree of at most the given depth. -/
def solve (verbosity : Level) (objective : Option Objective) :
    Nat → Option Int → Node P B → Except Fault Findings
  | 0, _, _ => .error .outOfFuel
  | depth + 1, best, n => do
    match ← Objective.impose objective best n with
    | (some _, _) => return .nothing best .failure
    | (none, n) =>
      let (failure, _, m) ← Crash.forget n.propagate
      let spent := Effort.ofEngines n.engine m.engine
      match failure with
      | some _ => return .nothing best (spent + .failure)
      | none =>
        match ← m.choose with
        | (none, m) =>
          return ⟨[⟨m.store⟩], ← Objective.attained objective best m.store, spent + .solution⟩
        | (some c, m) =>
          let below ← solveAll verbosity (solve verbosity objective depth) m c
            (List.range c.alternatives) best
          return (Findings.nothing best (spent + .decision)).followedBy below

/-- The depth only bounds the recursion: what is found does not depend on it. -/
theorem solve_succ {verbosity : Level} {objective : Option Objective} {depth : Nat}
    {best : Option Int} {n : Node P B} {f : Findings}
    (h : solve verbosity objective depth best n = .ok f) :
    solve verbosity objective (depth + 1) best n = .ok f := by
  induction depth generalizing best n f with
  | zero => contradiction
  | succ depth ih =>
      unfold solve at h ⊢
      obtain ⟨⟨unimproved, n₁⟩, himpose, hrest⟩ := Fault.bind_eq_ok_iff.mp h
      rw [himpose]
      cases unimproved with
      | some w => exact hrest
      | none =>
          obtain ⟨⟨failure, events, m⟩, hpropagate, hpropagated⟩ := Fault.bind_eq_ok_iff.mp hrest
          simp only [hpropagate, bind, Except.bind]
          cases failure with
          | some w => exact hpropagated
          | none =>
              obtain ⟨⟨choice, m'⟩, hchoose, hchosen⟩ := Fault.bind_eq_ok_iff.mp hpropagated
              simp only [hchoose]
              cases choice with
              | none => exact hchosen
              | some c =>
                  obtain ⟨below, hbelow, hf⟩ := Fault.bind_eq_ok_iff.mp hchosen
                  simp only [solveAll_mono (fun hfirst => ih hfirst) hbelow]
                  exact hf

end Recursion

namespace Search

variable {P B : Type}

/-- A search without limits, for all solutions or for better and better ones. -/
def start (root : Node P B) (objective : Option Objective) (verbosity : Level) : Search P B :=
  match objective with
  | none => enumerate root .unlimited verbosity
  | some objective => optimize root objective .unlimited verbosity

/-- The second search is where the first one comes to when it has found this. -/
structure Absorbs (s : Search P B) (f : Findings) (t : Search P B) : Prop where
  frame : t = { s with best := f.best, counters := t.counters }
  effort : t.counters.effort = s.counters.effort + f.effort

variable {s t u : Search P B} {f g : Findings}

theorem Absorbs.best_eq (h : s.Absorbs f t) : t.best = f.best := by
  rw [h.frame]

theorem Absorbs.objective_eq (h : s.Absorbs f t) : t.objective = s.objective := by
  rw [h.frame]

theorem Absorbs.verbosity_eq (h : s.Absorbs f t) : t.verbosity = s.verbosity := by
  rw [h.frame]

theorem Absorbs.trans (hst : s.Absorbs f t) (htu : t.Absorbs g u) :
    s.Absorbs (f.followedBy g) u where
  frame := by
    rw [htu.frame, hst.frame]
    rfl
  effort := by
    rw [htu.effort, hst.effort, add_assoc]
    rfl

section Descent

variable [Propagator P] [Brancher B]

/-- The open nodes while the alternatives of a choice from the given one on are left. -/
def pending (n : Node P B) (c : Choice) (next : Nat) (below : List (OpenNode P B)) :
    List (OpenNode P B) :=
  if next < c.alternatives then ⟨n, c, next⟩ :: below else below

end Descent

section Calls

theorem start_eq (root : Node P B) (objective : Option Objective) (verbosity : Level) :
    start root objective verbosity =
      ⟨some root, [], objective, none, .unlimited, .running, .zero, verbosity⟩ := by
  cases objective with
  | none => rfl
  | some objective => rfl

variable [Propagator P] [Brancher B] {root : Node P B} {objective : Option Objective}
  {verbosity : Level} {depth : Nat}

end Calls

end Search

end FiniteDomain
