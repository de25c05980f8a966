import FiniteDomain.Search
import FiniteDomain.Proofs.Deciding

/-!
# Steps of a search

What one step of a search can do, apart from counting and from the record of events.  A node that is
visited fails, or is split by a choice, or is a solution.  A step visits the root, or commits an
alternative of the deepest open node and visits what comes of it, or finds that the search is over.
Solutions are returned by calls, each of which takes any number of steps.
-/

namespace FiniteDomain

namespace Objective

/-- The values that are strictly better than the given one. -/
def better (best : Int) : Objective → Interval
  | minimize _ => ⟨Word.least, best - 1⟩
  | maximize _ => ⟨best + 1, Word.greatest⟩

theorem improveOn_eq_ok {best : Int} {s t : Store} {reply : Except Wipeout Bool}
    (objective : Objective) (h : (objective.improveOn best).apply s = .ok (reply, t)) :
    s.narrow objective.var (objective.better best).lb (objective.better best).ub =
      .ok (reply, t) := by
  cases objective with
  | minimize x =>
      unfold improveOn at h
      rw [Update.apply_bind, Update.apply_read] at h
      cases hfit : Word.fit (best - 1) with
      | error f =>
          rw [hfit] at h
          contradiction
      | ok bound =>
          rw [hfit] at h
          rcases Word.fit_eq_ok_iff.mp hfit with ⟨rfl, -⟩
          exact h
  | maximize x =>
      unfold improveOn at h
      rw [Update.apply_bind, Update.apply_read] at h
      cases hfit : Word.fit (best + 1) with
      | error f =>
          rw [hfit] at h
          contradiction
      | ok bound =>
          rw [hfit] at h
          rcases Word.fit_eq_ok_iff.mp hfit with ⟨rfl, -⟩
          exact h

end Objective

namespace Search

variable {P B : Type}

/-- The best value after a solution. -/
def bestAfter (s : Search P B) (store : Store) : Except Fault (Option Int) :=
  match s.objective with
  | none => .ok s.best
  | some objective => (objective.bestIn store).map some

theorem bestAfter_eq_ok {s : Search P B} {store : Store} {objective : Objective}
    {best : Option Int} (hobjective : s.objective = some objective)
    (h : s.bestAfter store = .ok best) :
    ∃ value, objective.bestIn store = .ok value ∧ best = some value := by
  unfold bestAfter at h
  rw [hobjective] at h
  dsimp only at h
  cases hvalue : objective.bestIn store with
  | error f =>
      rw [hvalue] at h
      contradiction
  | ok value =>
      rw [hvalue] at h
      exact ⟨value, rfl, (Except.ok.inj h).symm⟩

/-- The search once the runs and the retirements between two states of an engine are counted. -/
def charge (s : Search P B) (before after : Engine P) : Search P B :=
  { s with
    counters :=
      { s.counters with
        propagations := s.counters.propagations + (after.runs - before.runs)
        retired := s.counters.retired + (after.retirements - before.retirements) } }

/-- The open nodes once the next alternative of the deepest one is taken. -/
def remainder (top : OpenNode P B) (below : List (OpenNode P B)) : List (OpenNode P B) :=
  if top.next + 1 < top.choice.alternatives then
    { top with next := top.next + 1 } :: below
  else
    below

theorem accept_eq_ok {s t : Search P B} {n : Node P B} {event : Event}
    (h : s.accept n = .ok (t, event)) :
    ∃ best counters, s.bestAfter n.store = .ok best ∧
      t = { s with best := best, counters := counters } := by
  rcases s with ⟨root, stack, objective, best, budget, progress, counters, verbosity⟩
  cases objective with
  | none =>
      unfold accept at h
      simp only [pure, Except.pure, Except.ok.injEq, Prod.mk.injEq] at h
      rcases h with ⟨rfl, -⟩
      exact ⟨best, _, rfl, rfl⟩
  | some objective =>
      unfold accept at h
      rcases Fault.bind_eq_ok_iff.mp h with ⟨value, hvalue, hresult⟩
      simp only [pure, Except.pure, Except.ok.injEq, Prod.mk.injEq] at hresult
      rcases hresult with ⟨rfl, -⟩
      refine ⟨some value, _, ?_, rfl⟩
      unfold bestAfter
      dsimp only
      rw [hvalue]
      rfl

theorem constrain_eq_ok {s : Search P B} {n n₁ : Node P B} {failure : Option Wipeout}
    (h : s.constrain n = .ok (failure, n₁)) :
    (failure = none ∧ n₁ = n ∧ (s.objective = none ∨ s.best = none)) ∨
      ∃ objective best reply, s.objective = some objective ∧ s.best = some best ∧
        n.store.narrow objective.var (objective.better best).lb (objective.better best).ub =
          .ok (reply, n₁.store) ∧
        n₁ = { n with store := n₁.store } ∧ (failure = none ↔ ∃ changed, reply = .ok changed) := by
  unfold constrain at h
  split at h
  · rename_i objective best hobjective hbest
    rcases Fault.bind_eq_ok_iff.mp h with ⟨⟨reply, n'⟩, hupdate, hresult⟩
    obtain ⟨happly, hn'⟩ := Node.update_eq_ok hupdate
    have hnarrow := objective.improveOn_eq_ok happly
    right
    cases reply with
    | error w =>
        simp only [pure, Except.pure, Except.ok.injEq, Prod.mk.injEq] at hresult
        rcases hresult with ⟨rfl, rfl⟩
        exact ⟨objective, best, _, hobjective, hbest, hnarrow, hn', by simp⟩
    | ok changed =>
        simp only [pure, Except.pure, Except.ok.injEq, Prod.mk.injEq] at hresult
        rcases hresult with ⟨rfl, rfl⟩
        exact ⟨objective, best, _, hobjective, hbest, hnarrow, hn', by simp⟩
  · rename_i hnone
    simp only [pure, Except.pure, Except.ok.injEq, Prod.mk.injEq] at h
    rcases h with ⟨rfl, rfl⟩
    refine Or.inl ⟨rfl, rfl, ?_⟩
    cases hobjective : s.objective with
    | none => exact Or.inl rfl
    | some objective =>
        cases hbest : s.best with
        | none => exact Or.inr rfl
        | some best => exact absurd hbest (hnone objective best hobjective)

section Effects

variable [Propagator P] [Brancher B]

/-- What a visit of a node can leave, with a solution if it is one. -/
inductive Visit (s : Search P B) (n : Node P B) : Search P B → Option Solution → Prop
  | unimproved {w : Wipeout} {n₁ : Node P B} {counters : Counters}
      (hconstrain : s.constrain n = .ok (some w, n₁)) :
      Visit s n { s with counters := counters } none
  | failed {w : Wipeout} {n₁ n₂ : Node P B} {events : List Event} {counters : Counters}
      (hconstrain : s.constrain n = .ok (none, n₁))
      (hpropagate : n₁.propagate = .ok (some w, events, n₂)) :
      Visit s n { s with counters := counters } none
  | split {n₁ n₂ n₃ : Node P B} {events : List Event} {c : Choice} {counters : Counters}
      (hconstrain : s.constrain n = .ok (none, n₁))
      (hpropagate : n₁.propagate = .ok (none, events, n₂))
      (hchoose : n₂.choose = .ok (some c, n₃)) :
      Visit s n { s with stack := ⟨n₃, c, 0⟩ :: s.stack, counters := counters } none
  | solved {n₁ n₂ n₃ : Node P B} {events : List Event} {best : Option Int} {counters : Counters}
      (hconstrain : s.constrain n = .ok (none, n₁))
      (hpropagate : n₁.propagate = .ok (none, events, n₂))
      (hchoose : n₂.choose = .ok (none, n₃))
      (hbest : s.bestAfter n₃.store = .ok best) :
      Visit s n { s with best := best, counters := counters } (some ⟨n₃.store⟩)

/-- What a step of a search can leave, with a solution if it has found one. -/
inductive Step (s : Search P B) : Search P B → Option Solution → Prop
  | finished (hprogress : s.progress ≠ .running) : Step s s none
  | interrupted (hprogress : s.progress = .running) (hlimit : s.isLimitReached = true) :
      Step s { s with progress := .interrupted } none
  | exhausted (hprogress : s.progress = .running) (hroot : s.root = none) (hstack : s.stack = []) :
      Step s { s with progress := .exhausted } none
  | root {n : Node P B} {t : Search P B} {sol : Option Solution}
      (hprogress : s.progress = .running) (hroot : s.root = some n)
      (hvisit : Visit { s with root := none } n t sol) : Step s t sol
  | dropped {top : OpenNode P B} {below : List (OpenNode P B)} {w : Wipeout} {n : Node P B}
      {counters : Counters} (hprogress : s.progress = .running) (hroot : s.root = none)
      (hstack : s.stack = top :: below)
      (hcommit : top.node.commit top.choice top.next = .ok (.error w, n)) :
      Step s { s with stack := remainder top below, counters := counters } none
  | child {top : OpenNode P B} {below : List (OpenNode P B)} {n : Node P B} {t : Search P B}
      {sol : Option Solution} (hprogress : s.progress = .running) (hroot : s.root = none)
      (hstack : s.stack = top :: below)
      (hcommit : top.node.commit top.choice top.next = .ok (.ok (), n))
      (hvisit : Visit { s with stack := remainder top below } n t sol) : Step s t sol

theorem visit_of_visit_eq_ok {s : Search P B} {n : Node P B} {o : Outcome P B}
    (h : s.visit n = .ok o) : Visit s n o.search o.solution := by
  unfold visit at h
  rcases Fault.bind_eq_ok_iff.mp h with ⟨⟨unimproved, n₁⟩, hconstrain, hrest⟩
  rw [Crash.after_eq_ok_iff] at hconstrain
  cases unimproved with
  | some w =>
      simp only [pure, Except.pure, Except.ok.injEq] at hrest
      subst hrest
      exact .unimproved hconstrain
  | none =>
      rcases Fault.bind_eq_ok_iff.mp hrest with ⟨⟨failure, events, n₂⟩, hpropagate, hpropagated⟩
      cases failure with
      | some w =>
          simp only [pure, Except.pure, Except.ok.injEq] at hpropagated
          subst hpropagated
          exact .failed hconstrain hpropagate
      | none =>
          rcases Fault.bind_eq_ok_iff.mp hpropagated with ⟨⟨choice, n₃⟩, hchoose, hchosen⟩
          rw [Crash.after_eq_ok_iff] at hchoose
          cases choice with
          | some c =>
              simp only [pure, Except.pure, Except.ok.injEq] at hchosen
              subst hchosen
              exact .split hconstrain hpropagate hchoose
          | none =>
              rcases Fault.bind_eq_ok_iff.mp hchosen with ⟨⟨t, event⟩, haccept, hdone⟩
              rw [Crash.after_eq_ok_iff] at haccept
              simp only [pure, Except.pure, Except.ok.injEq] at hdone
              subst hdone
              obtain ⟨best, counters, hbest, rfl⟩ := accept_eq_ok haccept
              exact .solved hconstrain hpropagate hchoose hbest

theorem step_of_descend_eq_ok {s : Search P B} {top : OpenNode P B}
    {below : List (OpenNode P B)} {o : Outcome P B} (hprogress : s.progress = .running)
    (hroot : s.root = none) (hstack : s.stack = top :: below) (h : s.descend top below = .ok o) :
    Step s o.search o.solution := by
  unfold descend at h
  extract_lets alternative stack rest commits at h
  have hcommitted : ∀ taken, commits taken = .ok o → Step s o.search o.solution := by
    intro taken htaken
    rcases Fault.bind_eq_ok_iff.mp htaken with ⟨⟨reply, n⟩, hcommit, hreply⟩
    rw [Crash.after_eq_ok_iff] at hcommit
    cases reply with
    | error w =>
        simp only [pure, Except.pure, Except.ok.injEq] at hreply
        subst hreply
        exact .dropped hprogress hroot hstack hcommit
    | ok u =>
        rcases Outcome.mapEvents_eq_ok_iff.mp hreply with ⟨o', hvisit, rfl⟩
        have hnode := visit_of_visit_eq_ok hvisit
        exact .child hprogress hroot hstack hcommit hnode
  split at h
  · rcases Fault.bind_eq_ok_iff.mp h with ⟨description, -, hrest⟩
    exact hcommitted _ hrest
  · exact hcommitted _ h

theorem step_of_step_eq_ok {s : Search P B} {o : Outcome P B} (h : s.step = .ok o) :
    Step s o.search o.solution := by
  unfold step at h
  rcases Outcome.mapEvents_eq_ok_iff.mp h with ⟨o', hexplore, rfl⟩
  unfold explore at hexplore
  split at hexplore
  · rename_i hprogress
    rw [Except.ok.injEq] at hexplore
    subst hexplore
    exact .finished hprogress
  · rename_i hprogress
    rw [not_not] at hprogress
    split at hexplore
    · rename_i hlimit
      rw [Except.ok.injEq] at hexplore
      subst hexplore
      exact .interrupted hprogress hlimit
    · split at hexplore
      · rename_i n hroot
        have hvisit := visit_of_visit_eq_ok hexplore
        exact .root hprogress hroot hvisit
      · rename_i hroot hstack
        rw [Except.ok.injEq] at hexplore
        subst hexplore
        exact .exhausted hprogress hroot hstack
      · rename_i top below hroot hstack
        have hdescend := step_of_descend_eq_ok hprogress hroot hstack hexplore
        exact hdescend

/-- A visit does not end the search, nor does it change what is looked for. -/
theorem Visit.frame {s t : Search P B} {n : Node P B} {sol : Option Solution}
    (h : Visit s n t sol) :
    t.progress = s.progress ∧ t.root = s.root ∧ t.objective = s.objective := by
  cases h with
  | unimproved => exact ⟨rfl, rfl, rfl⟩
  | failed => exact ⟨rfl, rfl, rfl⟩
  | split => exact ⟨rfl, rfl, rfl⟩
  | solved => exact ⟨rfl, rfl, rfl⟩

theorem Step.objective {s t : Search P B} {sol : Option Solution} (h : Step s t sol) :
    t.objective = s.objective := by
  cases h with
  | finished => rfl
  | interrupted => rfl
  | exhausted => rfl
  | root _ _ hvisit => exact hvisit.frame.2.2
  | dropped => rfl
  | child _ _ _ _ hvisit => exact hvisit.frame.2.2

/-- Any number of steps, with the solutions that they have found, the first one first. -/
inductive Steps (s : Search P B) : List Solution → Search P B → Prop
  | refl : Steps s [] s
  | step {t u : Search P B} {sols : List Solution} {sol : Option Solution} (hst : Steps s sols t)
      (h : Step t u sol) : Steps s (sols ++ sol.toList) u

theorem Steps.objective {s t : Search P B} {sols : List Solution} (h : s.Steps sols t) :
    t.objective = s.objective := by
  induction h with
  | refl => rfl
  | step _ hstep ih => exact hstep.objective.trans ih

/-- Any number of calls, with the solutions that they have returned, the first one first. -/
inductive Returns (s : Search P B) : List Solution → Search P B → Prop
  | start : Returns s [] s
  | call {t : Search P B} {sols : List Solution} {fuel : Nat} {o : Outcome P B}
      (hst : Returns s sols t) (h : t.next fuel = .ok o) :
      Returns s (sols ++ o.solution.toList) o.search

theorem steps_of_run_eq_ok {s t : Search P B} {sols : List Solution} {fuel : Nat}
    {events : Array Event} {o : Outcome P B} (hst : s.Steps sols t)
    (h : t.run fuel events = .ok o) : s.Steps (sols ++ o.solution.toList) o.search := by
  induction fuel generalizing t events with
  | zero =>
      unfold run at h
      rw [Except.ok.injEq] at h
      subst h
      simpa using hst
  | succ fuel ih =>
      unfold run at h
      split at h
      · rw [Except.ok.injEq] at h
        subst h
        simpa using hst
      · cases hstep : t.step with
        | error c =>
            rw [hstep] at h
            contradiction
        | ok o' =>
            have hnext := hst.step (step_of_step_eq_ok hstep)
            rw [hstep] at h
            dsimp only at h
            cases hsol : o'.solution with
            | none =>
                rw [hsol] at h hnext
                simp only [Option.toList_none, List.append_nil] at hnext
                exact ih hnext h
            | some sol =>
                rw [hsol] at h hnext
                rw [Except.ok.injEq] at h
                subst h
                exact hnext

theorem Returns.steps {s t : Search P B} {sols : List Solution} (h : s.Returns sols t) :
    s.Steps sols t := by
  induction h with
  | start => exact .refl
  | call _ hnext ih => exact steps_of_run_eq_ok ih hnext

theorem returns_of_lastOf_eq_ok {s t : Search P B} {sols : List Solution} {fuel calls : Nat}
    {o : Outcome P B} (hst : s.Returns sols t)
    (h : t.lastOf fuel calls sols.getLast? = .ok o) :
    ∃ sols', s.Returns sols' o.search ∧ o.solution = sols'.getLast? := by
  induction calls generalizing t sols o with
  | zero =>
      unfold lastOf at h
      rw [Except.ok.injEq] at h
      subst h
      exact ⟨sols, hst, rfl⟩
  | succ calls ih =>
      unfold lastOf at h
      rcases Fault.bind_eq_ok_iff.mp h with ⟨o', hnext, hrest⟩
      have hcall := hst.call hnext
      cases hsol : o'.solution with
      | none =>
          rw [hsol] at hcall hrest
          simp only [pure, Except.pure, Except.ok.injEq] at hrest
          subst hrest
          rw [Option.toList_none, List.append_nil] at hcall
          exact ⟨sols, hcall, rfl⟩
      | some sol =>
          rw [hsol] at hcall hrest
          rcases Outcome.mapEvents_eq_ok_iff.mp hrest with ⟨o'', hlast, rfl⟩
          have hfound : (sols ++ (some sol).toList).getLast? = some sol := by simp
          rw [← hfound] at hlast
          obtain ⟨sols', hreturns, heq⟩ := ih hcall hlast
          exact ⟨sols', hreturns, heq⟩

theorem returns_of_last_eq_ok {s : Search P B} {fuel : Nat} {o : Outcome P B}
    (h : s.last fuel = .ok o) : ∃ sols, s.Returns sols o.search ∧ o.solution = sols.getLast? :=
  returns_of_lastOf_eq_ok .start h

end Effects

end Search

end FiniteDomain
