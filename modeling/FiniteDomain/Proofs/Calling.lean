import FiniteDomain.Search
import Mathlib.Tactic

/-!
# Calls of a search

A search is asked for one solution after the other.  Between two calls it rests, and the next call
goes on from there.  A trail is a number of steps that a search takes without a fault, with the
solutions that it finds; it does not know of calls.  Calls with enough fuel cut a trail that leads to
the end of the search after each of its solutions, and after the last one there is nothing left.
-/

namespace FiniteDomain.Search

variable {P B : Type} [Propagator P] [Brancher B]

/-- The answers to so many calls, the first one first, and the search that they leave. -/
def replies (fuel : Nat) :
    Nat → Search P B → Except Crash (List (Option Solution) × Search P B)
  | 0, s => .ok ([], s)
  | calls + 1, s => do
    let o ← s.next fuel
    let (later, t) ← replies fuel calls o.search
    return (o.solution :: later, t)

/-- So many steps from one search to another, and the solutions found on the way. -/
inductive Trail : Nat → Search P B → List Solution → Search P B → Prop
  | stop (s : Search P B) : Trail 0 s [] s
  | step {length : Nat} {s t : Search P B} {o : Outcome P B} {sols : List Solution}
      (hrunning : s.progress = .running) (hstep : s.step = .ok o)
      (hrest : Trail length o.search sols t) :
      Trail (length + 1) s (o.solution.toList ++ sols) t

variable {s t u : Search P B} {sols sols' : List Solution} {length length' fuel : Nat}

theorem Trail.trans (hst : Trail length s sols t) (htu : Trail length' t sols' u) :
    Trail (length + length') s (sols ++ sols') u := by
  induction hst with
  | stop s =>
      rw [Nat.zero_add]
      exact htu
  | step hrunning hstep _ ih =>
      rw [List.append_assoc, Nat.add_right_comm]
      exact .step hrunning hstep (ih htu)

/-- What every step keeps holds at the end of a trail. -/
theorem Trail.invariant {Keeps : Search P B → Prop}
    (hkeeps : ∀ {s : Search P B} {o : Outcome P B}, Keeps s → s.step = .ok o → Keeps o.search)
    (h : Trail length s sols t) (hs : Keeps s) : Keeps t := by
  induction h with
  | stop s => exact hs
  | step _ hstep _ ih => exact ih (hkeeps hs hstep)

/-- A call stops at the first solution of the trail, or at its end. -/
theorem Trail.run_eq_ok (h : Trail length s sols t) (hended : t.progress ≠ .running)
    (hfuel : length ≤ fuel) (events : Array Event) :
    ∃ o, s.run fuel events = .ok o ∧ o.solution = sols.head? ∧
      (∃ rest ≤ length, Trail rest o.search sols.tail t) ∧ (sols = [] → o.search = t) := by
  induction h generalizing fuel events with
  | stop s =>
      refine ⟨⟨s, none, events.toList⟩, ?_, rfl, ⟨0, le_rfl, .stop s⟩, fun _ => rfl⟩
      cases fuel with
      | zero => rfl
      | succ fuel =>
          unfold run
          rw [if_pos hended]
  | @step length s t o sols hrunning hstep hrest ih =>
      obtain ⟨fuel, rfl⟩ := Nat.exists_eq_add_one.mpr (Nat.zero_lt_of_lt hfuel)
      unfold run
      rw [if_neg (not_not.mpr hrunning), hstep]
      dsimp only
      cases hsol : o.solution with
      | none =>
          obtain ⟨o', hrun, hhead, ⟨rest, hle, htail⟩, hend⟩ :=
            ih hended (Nat.le_of_succ_le_succ hfuel) (events ++ o.events)
          exact ⟨o', hrun, hhead, ⟨rest, by omega, htail⟩, hend⟩
      | some sol =>
          refine ⟨_, rfl, rfl, ⟨length, by omega, hrest⟩, ?_⟩
          intro hnone
          contradiction

/-- Calls return the solutions of a trail to the end, in order, and then nothing any more. -/
theorem Trail.replies_eq_ok (h : Trail length s sols t) (hended : t.progress ≠ .running)
    (hfuel : length ≤ fuel) (calls : Nat) :
    ∃ u, s.replies fuel calls =
        .ok ((sols.map some).take calls ++ List.replicate (calls - sols.length) none, u) ∧
      (sols.length < calls → u = t) := by
  induction calls generalizing s sols length with
  | zero => exact ⟨s, by simp [replies], fun hless => absurd hless (Nat.not_lt_zero _)⟩
  | succ calls ih =>
      obtain ⟨o, hnext, hsol, ⟨rest, hle, htail⟩, hend⟩ := h.run_eq_ok hended hfuel #[]
      obtain ⟨u, hlater, hlast⟩ := ih htail (hle.trans hfuel)
      refine ⟨u, ?_, ?_⟩
      · unfold replies next
        rw [hnext]
        simp only [bind, Except.bind, pure, Except.pure, hlater]
        cases sols with
        | nil => simp [hsol, List.replicate_succ]
        | cons sol later => simp [hsol]
      · intro hless
        cases sols with
        | nil =>
            cases calls with
            | zero =>
                rw [← hend rfl]
                unfold replies at hlater
                simp only [Except.ok.injEq, Prod.mk.injEq] at hlater
                exact hlater.2.symm
            | succ calls => exact hlast (Nat.zero_lt_succ _)
        | cons sol later => exact hlast (Nat.lt_of_succ_lt_succ hless)

end FiniteDomain.Search
