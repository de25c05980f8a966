import FiniteDomain.Proofs.Calling
import FiniteDomain.Proofs.RecursiveSearch
import FiniteDomain.Proofs.Stepping

/-!
# Budgets of a search

A limit on the nodes cuts a search where the limit is reached, and it changes nothing before.  A step
of a running search explores exactly one node, or it ends the search where it is.  The budget is read
in one place, before a node is explored, so that a search with a limit goes the way of the search
without one as long as fewer nodes are explored than the limit says, and stops at the limit.

The number of nodes only grows, so each solution can be told by the number of nodes explored when it
is found, whether it comes before the cut.
-/

namespace FiniteDomain

/-- So many nodes, and no limit on the time. -/
def Budget.upTo (limit : Nat) : Budget :=
  ⟨some limit, false⟩

namespace Search

variable {P B : Type}

/-- The same search with another budget. -/
def within (budget : Budget) (s : Search P B) : Search P B :=
  { s with budget := budget }

theorem isLimitReached_of_unlimited {s : Search P B} (h : s.budget = .unlimited) :
    s.isLimitReached = false := by
  unfold isLimitReached
  rw [h]
  rfl

theorem isLimitReached_within_iff (s : Search P B) (limit : Nat) :
    (s.within (.upTo limit)).isLimitReached = true ↔ limit ≤ s.counters.nodes :=
  decide_eq_true_iff

theorem nodes_lt_of_not_isLimitReached {s : Search P B} {limit : Nat}
    (hlimit : s.budget.maxNodes = some limit) (h : s.isLimitReached = false) :
    s.counters.nodes < limit := by
  unfold isLimitReached at h
  rw [hlimit] at h
  simp only [Bool.or_eq_false_iff, decide_eq_false_iff_not, not_le] at h
  exact h.2

end Search

/-- The same outcome, with another budget of the search. -/
def Outcome.within {P B : Type} (budget : Budget) (o : Outcome P B) : Outcome P B :=
  { o with search := o.search.within budget }

theorem Outcome.mapEvents_map_within {P B : Type} (f : List Event → List Event) (budget : Budget)
    (x : Except Crash (Outcome P B)) :
    Outcome.mapEvents f (x.map (Outcome.within budget)) =
      (Outcome.mapEvents f x).map (Outcome.within budget) := by
  cases x <;> rfl

namespace Search

variable {P B : Type}

/-- One node is explored, and the search goes on. -/
structure Advances (s t : Search P B) : Prop where
  hasNodesLeft : s.isLimitReached = false
  running : t.progress = .running
  nodes_eq : t.counters.nodes = s.counters.nodes + 1

/-- The search ends where it is. -/
inductive Ends (s : Search P B) : Search P B → Prop
  | interrupted (hlimit : s.isLimitReached = true) : Ends s { s with progress := .interrupted }
  | exhausted (hlimit : s.isLimitReached = false) (hroot : s.root = none)
      (hstack : s.stack = []) : Ends s { s with progress := .exhausted }

theorem Ends.not_running {s t : Search P B} (h : Ends s t) : t.progress ≠ .running := by
  cases h <;> exact Progress.noConfusion

theorem Ends.counters_eq {s t : Search P B} (h : Ends s t) : t.counters = s.counters := by
  cases h <;> rfl

theorem accept_counts {s t : Search P B} {n : Node P B} {event : Event}
    (h : s.accept n = .ok (t, event)) :
    t.progress = s.progress ∧ t.budget = s.budget ∧
      t.counters.nodes = s.counters.nodes + 1 := by
  unfold accept at h
  split at h
  · obtain ⟨value, -, hresult⟩ := Fault.bind_eq_ok_iff.mp h
    simp only [pure, Except.pure, Except.ok.injEq, Prod.mk.injEq] at hresult
    rw [← hresult.1]
    exact ⟨rfl, rfl, rfl⟩
  · simp only [pure, Except.pure, Except.ok.injEq, Prod.mk.injEq] at h
    rw [← h.1]
    exact ⟨rfl, rfl, rfl⟩

/-- With this budget no more nodes are explored than it allows, and the search is exhausted only if
nothing is left to explore. -/
structure InBudget (budget : Budget) (s : Search P B) : Prop where
  budget_eq : s.budget = budget
  nodes_le : ∀ limit, budget.maxNodes = some limit → s.counters.nodes ≤ limit
  isExplored : s.progress = .exhausted → s.root = none ∧ s.stack = []
  isLimited : s.progress = .interrupted → s.isLimitReached = true

theorem inBudget_start (root : Node P B) (objective : Option Objective) (verbosity : Level)
    (budget : Budget) : ((start root objective verbosity).within budget).InBudget budget := by
  rw [start_eq]
  constructor
  · rfl
  · intro limit _
    exact Nat.zero_le limit
  · exact Progress.noConfusion
  · exact Progress.noConfusion

/-- Without a limit a search is never interrupted. -/
theorem InBudget.exhausted {s : Search P B} (hs : s.InBudget .unlimited) (hended : s.progress ≠ .running) :
    s.progress = .exhausted := by
  cases hprogress : s.progress with
  | running => contradiction
  | exhausted => rfl
  | interrupted =>
      have hlimit := hs.isLimited hprogress
      rw [isLimitReached_of_unlimited hs.budget_eq] at hlimit
      contradiction

section Effects

variable [Propagator P] [Brancher B] {s t : Search P B} {n : Node P B} {o : Outcome P B}

/-! ## One step, one node -/

/-- A visit counts one node, whatever comes of it. -/
theorem visit_counts (h : s.visit n = .ok o) :
    o.search.progress = s.progress ∧ o.search.budget = s.budget ∧
      o.search.counters.nodes = s.counters.nodes + 1 := by
  unfold visit at h
  obtain ⟨⟨unimproved, n₁⟩, -, hrest⟩ := Fault.bind_eq_ok_iff.mp h
  cases unimproved with
  | some w =>
      rw [← Except.ok.inj hrest]
      exact ⟨rfl, rfl, rfl⟩
  | none =>
      obtain ⟨⟨failure, events, n₂⟩, -, hpropagated⟩ := Fault.bind_eq_ok_iff.mp hrest
      cases failure with
      | some w =>
          rw [← Except.ok.inj hpropagated]
          exact ⟨rfl, rfl, rfl⟩
      | none =>
          obtain ⟨⟨choice, n₃⟩, -, hchosen⟩ := Fault.bind_eq_ok_iff.mp hpropagated
          cases choice with
          | some c =>
              rw [← Except.ok.inj hchosen]
              exact ⟨rfl, rfl, rfl⟩
          | none =>
              obtain ⟨⟨t, event⟩, haccept, hdone⟩ := Fault.bind_eq_ok_iff.mp hchosen
              rw [Crash.after_eq_ok_iff] at haccept
              have hcounts := accept_counts haccept
              rw [← Except.ok.inj hdone]
              exact hcounts

/-- An alternative counts one node, also if it fails to be committed. -/
theorem descend_counts {top : OpenNode P B} {below : List (OpenNode P B)}
    (h : s.descend top below = .ok o) :
    o.search.progress = s.progress ∧ o.search.budget = s.budget ∧
      o.search.counters.nodes = s.counters.nodes + 1 := by
  unfold descend at h
  extract_lets alternative stack rest commits at h
  have hcommits : ∀ taken, commits taken = .ok o →
      o.search.progress = s.progress ∧ o.search.budget = s.budget ∧
        o.search.counters.nodes = s.counters.nodes + 1 := by
    intro taken htaken
    obtain ⟨⟨reply, n⟩, -, hreply⟩ := Fault.bind_eq_ok_iff.mp htaken
    cases reply with
    | error w =>
        rw [← Except.ok.inj hreply]
        exact ⟨rfl, rfl, rfl⟩
    | ok u =>
        obtain ⟨o', hvisit, ho⟩ := Outcome.mapEvents_eq_ok_iff.mp hreply
        have hcounts := visit_counts hvisit
        rw [ho]
        exact hcounts
  split at h
  · obtain ⟨description, -, hrest⟩ := Fault.bind_eq_ok_iff.mp h
    exact hcommits _ hrest
  · exact hcommits _ h

theorem step_of_not_running (h : s.progress ≠ .running) : s.step = .ok ⟨s, none, []⟩ := by
  unfold step explore
  rw [if_pos h]
  rfl

/-- A step of a running search explores one node or ends the search. -/
theorem step_advances_or_ends (hrunning : s.progress = .running) (h : s.step = .ok o) :
    (s.Advances o.search ∧ o.search.budget = s.budget) ∨
      (o.solution = none ∧ s.Ends o.search) := by
  unfold step at h
  obtain ⟨o', hexplore, rfl⟩ := Outcome.mapEvents_eq_ok_iff.mp h
  unfold explore at hexplore
  rw [if_neg (not_not.mpr hrunning)] at hexplore
  split at hexplore
  · rename_i hlimit
    right
    rw [← Except.ok.inj hexplore]
    exact ⟨rfl, .interrupted hlimit⟩
  · rename_i hlimit
    rw [Bool.not_eq_true] at hlimit
    split at hexplore
    · obtain ⟨hprogress, hbudget, hnodes⟩ := visit_counts hexplore
      exact Or.inl ⟨⟨hlimit, hprogress.trans hrunning, hnodes⟩, hbudget⟩
    · rename_i hroot hstack
      right
      rw [← Except.ok.inj hexplore]
      exact ⟨rfl, .exhausted hlimit hroot hstack⟩
    · obtain ⟨hprogress, hbudget, hnodes⟩ := descend_counts hexplore
      exact Or.inl ⟨⟨hlimit, hprogress.trans hrunning, hnodes⟩, hbudget⟩

/-! ## What the steps of all calls keep -/

section Calls

variable {fuel : Nat} {events : Array Event}

theorem run_of_not_running (fuel : Nat) (h : s.progress ≠ .running) (events : Array Event) :
    s.run fuel events = .ok ⟨s, none, events.toList⟩ := by
  cases fuel with
  | zero => rfl
  | succ fuel =>
      unfold run
      rw [if_pos h]

theorem run_succ_of_solution {sol : Solution} (hrunning : s.progress = .running)
    (hstep : s.step = .ok o) (hsol : o.solution = some sol) :
    s.run (fuel + 1) events = .ok ⟨o.search, some sol, (events ++ o.events).toList⟩ := by
  unfold run
  rw [if_neg (not_not.mpr hrunning), hstep]
  dsimp only
  rw [hsol]

theorem run_succ_of_none (hrunning : s.progress = .running) (hstep : s.step = .ok o)
    (hnone : o.solution = none) :
    s.run (fuel + 1) events = o.search.run fuel (events ++ o.events) := by
  rw [run, if_neg (not_not.mpr hrunning), hstep]
  dsimp only
  rw [hnone]

/-- A call takes a first step, and stops there or goes on. -/
theorem run_succ_eq_ok (hrunning : s.progress = .running)
    (h : s.run (fuel + 1) events = .ok o) :
    ∃ o₁, s.step = .ok o₁ ∧
      ((∃ sol, o₁.solution = some sol ∧ o.solution = some sol ∧ o.search = o₁.search) ∨
        (o₁.solution = none ∧ o₁.search.run fuel (events ++ o₁.events) = .ok o)) := by
  cases hstep : s.step with
  | error c =>
      unfold run at h
      rw [if_neg (not_not.mpr hrunning), hstep] at h
      contradiction
  | ok o₁ =>
      refine ⟨o₁, rfl, ?_⟩
      cases hsol : o₁.solution with
      | none =>
          rw [run_succ_of_none hrunning hstep hsol] at h
          exact Or.inr ⟨rfl, h⟩
      | some sol =>
          rw [run_succ_of_solution hrunning hstep hsol] at h
          rw [← Except.ok.inj h]
          exact Or.inl ⟨sol, rfl, rfl, rfl⟩

theorem run_invariant {Keeps : Search P B → Prop}
    (hkeeps : ∀ {s : Search P B} {o : Outcome P B}, Keeps s → s.step = .ok o → Keeps o.search)
    (hs : Keeps s) (h : s.run fuel events = .ok o) : Keeps o.search := by
  induction fuel generalizing s events with
  | zero =>
      rw [← Except.ok.inj h]
      exact hs
  | succ fuel ih =>
      by_cases hrunning : s.progress = .running
      · obtain ⟨o₁, hstep, ⟨sol, -, -, hsearch⟩ | ⟨-, hrest⟩⟩ := run_succ_eq_ok hrunning h
        · rw [hsearch]
          exact hkeeps hs hstep
        · exact ih (hkeeps hs hstep) hrest
      · rw [run_of_not_running _ hrunning] at h
        rw [← Except.ok.inj h]
        exact hs

/-- What every step keeps holds after any number of calls. -/
theorem Returns.invariant {Keeps : Search P B → Prop}
    (hkeeps : ∀ {s : Search P B} {o : Outcome P B}, Keeps s → s.step = .ok o → Keeps o.search)
    {sols : List Solution} (h : s.Returns sols t) (hs : Keeps s) : Keeps t := by
  induction h with
  | start => exact hs
  | call _ hnext ih => exact run_invariant hkeeps ih hnext

end Calls

theorem InBudget.afterStep {budget : Budget} (hs : s.InBudget budget) (h : s.step = .ok o) :
    o.search.InBudget budget := by
  by_cases hrunning : s.progress = .running
  · rcases step_advances_or_ends hrunning h with ⟨hadvances, hbudget⟩ | ⟨-, hends⟩
    · have hgoing := hadvances.running
      constructor
      · exact hbudget.trans hs.budget_eq
      · intro limit hlimit
        rw [← hs.budget_eq] at hlimit
        have hless := nodes_lt_of_not_isLimitReached hlimit hadvances.hasNodesLeft
        have hnodes := hadvances.nodes_eq
        omega
      · intro hexhausted
        rw [hgoing] at hexhausted
        contradiction
      · intro hinterrupted
        rw [hgoing] at hinterrupted
        contradiction
    · generalize o.search = t at hends
      cases hends with
      | interrupted hlimit =>
          exact ⟨hs.budget_eq, hs.nodes_le, fun hover => Progress.noConfusion hover,
            fun _ => hlimit⟩
      | exhausted hlimit hroot hstack =>
          exact ⟨hs.budget_eq, hs.nodes_le, fun _ => ⟨hroot, hstack⟩,
            fun hover => Progress.noConfusion hover⟩
  · rw [step_of_not_running hrunning] at h
    rw [← Except.ok.inj h]
    exact hs

theorem Returns.inBudget {root : Node P B} {objective : Option Objective} {verbosity : Level}
    {budget : Budget} {sols : List Solution}
    (h : ((Search.start root objective verbosity).within budget).Returns sols t) : t.InBudget budget :=
  h.invariant InBudget.afterStep (inBudget_start root objective verbosity budget)

/-! ## The search with a limit goes the same way -/

theorem visit_within (budget : Budget) (s : Search P B) (n : Node P B) :
    (s.within budget).visit n = (s.visit n).map (Outcome.within budget) := by
  unfold visit
  rw [show (s.within budget).constrain n = s.constrain n from rfl]
  rcases s.constrain n with f | ⟨_ | w, n₁⟩
  · rfl
  · simp only [Crash.after, bind, Except.bind]
    rcases n₁.propagate with c | ⟨_ | w, events, n₂⟩
    · rfl
    · dsimp only
      rcases n₂.choose with f | ⟨_ | c, n₃⟩
      · rfl
      · rcases s with ⟨root, stack, _ | objective, best, _, progress, counters, verbosity⟩
        · rfl
        · simp only [accept, within, bind, Except.bind]
          cases objective.bestIn n₃.store with
          | error f => rfl
          | ok value => rfl
      · rfl
    · rfl
  · rfl

theorem descend_within (budget : Budget) (s : Search P B) (top : OpenNode P B)
    (below : List (OpenNode P B)) :
    (s.within budget).descend top below =
      (s.descend top below).map (Outcome.within budget) := by
  unfold descend
  extract_lets alternative stack rest commits rest' commits'
  have hcommits : ∀ taken, commits taken = (commits' taken).map (Outcome.within budget) := by
    intro taken
    simp only [commits, commits', bind, Except.bind]
    rcases top.node.commit top.choice alternative with f | ⟨w | u, n⟩
    · rfl
    · rfl
    · have hvisit := visit_within budget rest' n
      show Outcome.mapEvents (taken ++ ·) (rest.visit n) =
        (Outcome.mapEvents (taken ++ ·) (rest'.visit n)).map (Outcome.within budget)
      rw [← Outcome.mapEvents_map_within, ← hvisit]
      rfl
  have hverbosity : rest.verbosity = rest'.verbosity := rfl
  rw [hverbosity]
  split
  · rcases top.node.describe top.choice alternative with f | description
    · rfl
    · exact hcommits _
  · exact hcommits _

theorem explore_of_hasNodesLeft (hrunning : s.progress = .running)
    (hlimit : s.isLimitReached = false) :
    s.explore =
      match s.root, s.stack with
      | some root, _ => { s with root := none }.visit root
      | none, [] => .ok ⟨{ s with progress := .exhausted }, none, [.exhausted s.counters.solutions]⟩
      | none, top :: below => s.descend top below := by
  unfold explore
  rw [if_neg (not_not.mpr hrunning), hlimit]
  rfl

theorem explore_of_isLimitReached (hrunning : s.progress = .running)
    (hlimit : s.isLimitReached = true) :
    s.explore =
      .ok ⟨{ s with progress := .interrupted }, none, [.interrupted s.counters.nodes]⟩ := by
  unfold explore
  rw [if_neg (not_not.mpr hrunning), if_pos hlimit]

/-- A search with nodes left goes on in the same way whatever the budget is. -/
theorem step_within (budget : Budget) (hrunning : s.progress = .running)
    (hlimit : s.isLimitReached = false) (hlimit' : (s.within budget).isLimitReached = false) :
    (s.within budget).step = s.step.map (Outcome.within budget) := by
  have hexplore : (s.within budget).explore = s.explore.map (Outcome.within budget) := by
    rw [explore_of_hasNodesLeft (s := s.within budget) hrunning hlimit',
      explore_of_hasNodesLeft hrunning hlimit]
    rcases s with ⟨_ | root, stack, objective, best, before, progress, counters, verbosity⟩
    · cases stack with
      | nil => rfl
      | cons top below => exact descend_within budget _ top below
    · have hvisit := visit_within budget
        ⟨none, stack, objective, best, before, progress, counters, verbosity⟩ root
      exact hvisit
  unfold step
  rw [hexplore, Outcome.mapEvents_map_within]
  rfl

/-! ## The cut -/

/-- The search is over for want of budget, with just so many nodes explored. -/
def CutAt (limit : Nat) (s : Search P B) : Prop :=
  s.progress = .interrupted ∧ s.counters.nodes = limit

variable {limit fuel calls : Nat} {events : Array Event}

/-- The number of nodes grows with each solution. -/
theorem run_counts (hrunning : s.progress = .running) (h : s.run fuel events = .ok o) :
    s.counters.nodes ≤ o.search.counters.nodes ∧
      ∀ sol, o.solution = some sol → o.search.progress = .running ∧
        o.search.budget = s.budget ∧ s.counters.nodes < o.search.counters.nodes := by
  induction fuel generalizing s events with
  | zero =>
      rw [← Except.ok.inj h]
      exact ⟨le_rfl, fun sol hsol => absurd hsol (Option.some_ne_none sol).symm⟩
  | succ fuel ih =>
      obtain ⟨o₁, hstep, hcases⟩ := run_succ_eq_ok hrunning h
      rcases step_advances_or_ends hrunning hstep with ⟨hadvances, hbudget⟩ | ⟨hnone, hends⟩
      · have hnodes := hadvances.nodes_eq
        rcases hcases with ⟨sol, -, -, hsearch⟩ | ⟨-, hrest⟩
        · rw [hsearch]
          exact ⟨by omega, fun sol _ => ⟨hadvances.running, hbudget, by omega⟩⟩
        · obtain ⟨hle, hfound⟩ := ih hadvances.running hrest
          refine ⟨by omega, fun sol hsol => ?_⟩
          obtain ⟨hprogress, hbudget', hless⟩ := hfound sol hsol
          exact ⟨hprogress, hbudget'.trans hbudget, by omega⟩
      · rcases hcases with ⟨sol, hsol, -, -⟩ | ⟨-, hrest⟩
        · rw [hnone] at hsol
          contradiction
        · rw [run_of_not_running _ hends.not_running] at hrest
          rw [← Except.ok.inj hrest, hends.counters_eq]
          exact ⟨le_rfl, fun sol hsol => absurd hsol (Option.some_ne_none sol).symm⟩

/-- At the limit a call finds nothing, and the search is over. -/
theorem run_of_isLimitReached (fuel : Nat) (hrunning : s.progress = .running)
    (hlimit : s.isLimitReached = true) (events : Array Event) :
    ∃ o, s.run (fuel + 1) events = .ok o ∧ o.solution = none ∧
      o.search.CutAt s.counters.nodes := by
  have hexplore := explore_of_isLimitReached hrunning hlimit
  unfold run step
  rw [if_neg (not_not.mpr hrunning), hexplore]
  refine ⟨_, run_of_not_running fuel ?_ _, rfl, rfl, rfl⟩
  exact Progress.noConfusion

/-- A call with a limit on the nodes does what it does without one, or the search is cut before. -/
inductive Curbs (limit : Nat) (o : Outcome P B) : Outcome P B → Prop
  | whole {o' : Outcome P B} (hsol : o'.solution = o.solution)
      (hsearch : o'.search = o.search.within (.upTo limit))
      (hle : o.search.counters.nodes ≤ limit)
      (hless : o.search.progress ≠ .running → o.search.counters.nodes < limit) : Curbs limit o o'
  | cut {o' : Outcome P B} (hnone : o'.solution = none) (hcut : o'.search.CutAt limit)
      (hle : limit ≤ o.search.counters.nodes)
      (hless : ∀ sol, o.solution = some sol → limit < o.search.counters.nodes) : Curbs limit o o'

theorem run_within (hunlimited : s.budget = .unlimited) (hrunning : s.progress = .running)
    (hle : s.counters.nodes ≤ limit) (h : s.run fuel events = .ok o) (events' : Array Event) :
    ∃ o', (s.within (.upTo limit)).run fuel events' = .ok o' ∧ Curbs limit o o' := by
  induction fuel generalizing s events events' with
  | zero =>
      rw [← Except.ok.inj h]
      exact ⟨_, rfl, .whole rfl rfl hle fun hover => absurd hrunning hover⟩
  | succ fuel ih =>
      by_cases hcut : limit ≤ s.counters.nodes
      · obtain ⟨hgrows, hfound⟩ := run_counts hrunning h
        obtain rfl : limit = s.counters.nodes := le_antisymm hcut hle
        obtain ⟨o', hrun, hnone, hover⟩ :=
          run_of_isLimitReached (s := s.within (.upTo s.counters.nodes)) fuel hrunning
            ((s.isLimitReached_within_iff _).mpr hcut) events'
        exact ⟨o', hrun, .cut hnone hover hgrows fun sol hsol => (hfound sol hsol).2.2⟩
      · have hlimit := isLimitReached_of_unlimited hunlimited
        have hlimit' : (s.within (.upTo limit)).isLimitReached = false := by
          rw [← Bool.not_eq_true, isLimitReached_within_iff]
          exact hcut
        have hwithin := step_within (.upTo limit) hrunning hlimit hlimit'
        obtain ⟨o₁, hstep, hcases⟩ := run_succ_eq_ok hrunning h
        rw [hstep] at hwithin
        rcases step_advances_or_ends hrunning hstep with ⟨hadvances, hbudget⟩ | ⟨hnone, hends⟩
        · have hnodes := hadvances.nodes_eq
          rcases hcases with ⟨sol, hsol, hsol', hsearch⟩ | ⟨hnone, hrest⟩
          · have hover := hadvances.running
            rw [← hsearch] at hnodes hover
            refine ⟨_, run_succ_of_solution (o := o₁.within _) hrunning hwithin hsol, ?_⟩
            refine .whole hsol'.symm ?_ (by omega) fun hended => absurd hover hended
            rw [hsearch]
            rfl
          · rw [run_succ_of_none (s := s.within (.upTo limit)) hrunning hwithin hnone]
            exact ih (hbudget.trans hunlimited) hadvances.running (by omega) hrest _
        · rcases hcases with ⟨sol, hsol, -, -⟩ | ⟨-, hrest⟩
          · rw [hnone] at hsol
            contradiction
          · have hcounters := hends.counters_eq
            rw [run_of_not_running _ hends.not_running] at hrest
            rw [run_succ_of_none (s := s.within (.upTo limit)) hrunning hwithin hnone,
              run_of_not_running (s := (o₁.within (.upTo limit)).search) _ hends.not_running,
              ← Except.ok.inj hrest]
            refine ⟨_, rfl, .whole rfl rfl ?_ fun _ => ?_⟩
            · rw [hcounters]
              exact hle
            · rw [hcounters]
              exact not_le.mp hcut

/-- Asks for one solution after the other, at most so many times, until none is found.  With each
solution comes the number of nodes that were explored by then. -/
def collect (fuel : Nat) :
    Nat → Search P B → Except Crash (List (Solution × Nat) × Search P B)
  | 0, s => .ok ([], s)
  | calls + 1, s => do
    let o ← s.next fuel
    match o.solution with
    | none => return ([], o.search)
    | some sol =>
      let (later, t) ← collect fuel calls o.search
      return ((sol, o.search.counters.nodes) :: later, t)

variable {found : List (Solution × Nat)}

theorem collect_succ_eq_ok (h : s.collect fuel (calls + 1) = .ok (found, t)) :
    ∃ o, s.next fuel = .ok o ∧
      ((o.solution = none ∧ found = [] ∧ t = o.search) ∨
        ∃ sol later, o.solution = some sol ∧ o.search.collect fuel calls = .ok (later, t) ∧
          found = (sol, o.search.counters.nodes) :: later) := by
  unfold collect at h
  obtain ⟨o, hnext, hrest⟩ := Fault.bind_eq_ok_iff.mp h
  refine ⟨o, hnext, ?_⟩
  split at hrest
  · rename_i hnone
    obtain ⟨rfl, rfl⟩ := Prod.mk.inj (Except.ok.inj hrest)
    exact Or.inl ⟨hnone, rfl, rfl⟩
  · rename_i sol hsol
    obtain ⟨⟨later, t'⟩, hlater, hresult⟩ := Fault.bind_eq_ok_iff.mp hrest
    obtain ⟨rfl, rfl⟩ := Prod.mk.inj (Except.ok.inj hresult)
    exact Or.inr ⟨sol, later, hsol, hlater, rfl⟩

theorem returns_of_collect {r : Search P B} {sols : List Solution} (hrs : r.Returns sols s)
    (h : s.collect fuel calls = .ok (found, t)) : r.Returns (sols ++ found.map Prod.fst) t := by
  induction calls generalizing s sols found with
  | zero =>
      obtain ⟨rfl, rfl⟩ := Prod.mk.inj (Except.ok.inj h)
      simpa using hrs
  | succ calls ih =>
      obtain ⟨o, hnext, hcases⟩ := collect_succ_eq_ok h
      have hcall := hrs.call hnext
      rcases hcases with ⟨hnone, rfl, rfl⟩ | ⟨sol, later, hsol, hlater, rfl⟩
      · rw [hnone] at hcall
        exact hcall
      · rw [hsol] at hcall
        have hrest := ih hcall hlater
        rw [List.append_assoc] at hrest
        exact hrest

/-- Solutions come after the nodes that are explored already. -/
theorem lt_of_mem_collect (hrunning : s.progress = .running)
    (h : s.collect fuel calls = .ok (found, t)) :
    s.counters.nodes ≤ t.counters.nodes ∧ ∀ x ∈ found, s.counters.nodes < x.2 := by
  induction calls generalizing s found with
  | zero =>
      obtain ⟨rfl, rfl⟩ := Prod.mk.inj (Except.ok.inj h)
      exact ⟨le_rfl, fun x hx => absurd hx List.not_mem_nil⟩
  | succ calls ih =>
      obtain ⟨o, hnext, hcases⟩ := collect_succ_eq_ok h
      obtain ⟨hle, hfound⟩ := run_counts hrunning hnext
      rcases hcases with ⟨-, hnil, ht⟩ | ⟨sol, later, hsol, hlater, hcons⟩
      · rw [hnil, ht]
        exact ⟨hle, fun x hx => absurd hx List.not_mem_nil⟩
      · obtain ⟨hprogress, -, hless⟩ := hfound sol hsol
        obtain ⟨hle', hmem⟩ := ih hprogress hlater
        refine ⟨hle.trans hle', fun x hx => ?_⟩
        rw [hcons, List.mem_cons] at hx
        rcases hx with hx | hx
        · rw [hx]
          exact hless
        · exact hless.trans (hmem x hx)

/-- A limit keeps the solutions that are found within it. -/
theorem collect_of_unlimited (hunlimited : s.budget = .unlimited) (hrunning : s.progress = .running)
    (hle : s.counters.nodes ≤ limit) (h : s.collect fuel calls = .ok (found, t))
    (hended : t.progress ≠ .running) :
    ∃ u, (s.within (.upTo limit)).collect fuel calls =
        .ok (found.filter fun x => x.2 ≤ limit, u) ∧
      (limit ≤ t.counters.nodes → u.CutAt limit) ∧
      (t.counters.nodes < limit → u = t.within (.upTo limit)) := by
  induction calls generalizing s found with
  | zero =>
      obtain ⟨-, rfl⟩ := Prod.mk.inj (Except.ok.inj h)
      contradiction
  | succ calls ih =>
      obtain ⟨o, hnext, hcases⟩ := collect_succ_eq_ok h
      obtain ⟨-, hgrows⟩ := run_counts hrunning hnext
      obtain ⟨o', hnext', hcurbs⟩ := run_within hunlimited hrunning hle hnext #[]
      cases hcurbs with
      | whole hsol' hsearch hwithin hless =>
        unfold collect next
        rw [hnext']
        simp only [bind, Except.bind, hsol', hsearch]
        rcases hcases with ⟨hnone, hnil, ht⟩ | ⟨sol, later, hsol, hlater, hcons⟩
        · rw [← ht] at hless
          have hless' := hless hended
          rw [hnone, hnil, ← ht]
          exact ⟨_, rfl, fun hle' => absurd hless' (not_lt.mpr hle'), fun _ => rfl⟩
        · obtain ⟨hprogress, hbudget, -⟩ := hgrows sol hsol
          obtain ⟨u, hlater', hcut, hwhole⟩ :=
            ih (hbudget.trans hunlimited) hprogress hwithin hlater
          rw [hsol, hcons]
          simp only [hlater']
          refine ⟨u, ?_, hcut, hwhole⟩
          rw [List.filter_cons_of_pos (by simpa using hwithin)]
          rfl
      | cut hnone' hcutAt hle' hless =>
        have hnil : found.filter (fun x => x.2 ≤ limit) = [] ∧ limit ≤ t.counters.nodes := by
          rcases hcases with ⟨hnone, hnil, ht⟩ | ⟨sol, later, hsol, hlater, hcons⟩
          · rw [hnil, ht]
            exact ⟨rfl, hle'⟩
          · obtain ⟨hprogress, -, -⟩ := hgrows sol hsol
            obtain ⟨hle'', hmem⟩ := lt_of_mem_collect hprogress hlater
            refine ⟨?_, hle'.trans hle''⟩
            rw [List.filter_eq_nil_iff, hcons]
            intro x hx
            have hover := hless sol hsol
            rw [List.mem_cons] at hx
            rcases hx with hx | hx
            · simpa [hx] using hover
            · simpa using hover.trans (hmem x hx)
        unfold collect next
        rw [hnext']
        simp only [bind, Except.bind, hnone', hnil.1]
        exact ⟨_, rfl, fun _ => hcutAt, fun hless' => absurd hless' (not_lt.mpr hnil.2)⟩

/-- A limit on the nodes cuts a search exactly.  The solutions are those that the search without a
limit finds among so many nodes.  If there are at least so many, the search is interrupted after just
so many; if there are fewer, it ends as the search without a limit does.  Whatever the budget is, no
more nodes are explored than it allows, and no search is exhausted while its root or an alternative of
an open node is unexplored. -/
theorem collect_within_upTo (root : Node P B) (objective : Option Objective) (verbosity : Level) :
    (∀ {fuel calls : Nat} {found : List (Solution × Nat)} {t : Search P B},
      (start root objective verbosity).collect fuel calls = .ok (found, t) →
      t.progress ≠ .running → ∀ limit,
      ∃ u, ((start root objective verbosity).within (.upTo limit)).collect fuel calls =
          .ok (found.filter fun x => x.2 ≤ limit, u) ∧
        (limit ≤ t.counters.nodes → u.progress = .interrupted ∧ u.counters.nodes = limit) ∧
        (t.counters.nodes < limit → u.progress = .exhausted ∧ u.counters = t.counters)) ∧
    ∀ {budget : Budget} {sols : List Solution} {v : Search P B},
      ((start root objective verbosity).within budget).Returns sols v →
      (∀ limit, budget.maxNodes = some limit → v.counters.nodes ≤ limit) ∧
        (v.progress = .exhausted → v.root = none ∧ v.stack = []) := by
  constructor
  · intro fuel calls found t hcollect hended limit
    have hunlimited : (start root objective verbosity).budget = .unlimited := by rw [start_eq]
    have hrunning : (start root objective verbosity).progress = .running := by rw [start_eq]
    have hnodes : (start root objective verbosity).counters.nodes ≤ limit := by
      rw [start_eq]
      exact Nat.zero_le limit
    obtain ⟨u, hcollect', hcut, hwhole⟩ :=
      collect_of_unlimited hunlimited hrunning hnodes hcollect hended
    refine ⟨u, hcollect', hcut, fun hless => ?_⟩
    rw [hwhole hless]
    refine ⟨?_, rfl⟩
    have hreturns := returns_of_collect (.start (s := start root objective verbosity)) hcollect
    have hin : t.InBudget .unlimited :=
      hreturns.invariant InBudget.afterStep
        (hunlimited ▸ inBudget_start root objective verbosity .unlimited)
    cases hprogress : t.progress with
    | running => contradiction
    | exhausted => exact hprogress
    | interrupted =>
        have hlimit := hin.isLimited hprogress
        rw [isLimitReached_of_unlimited hin.budget_eq] at hlimit
        contradiction
  · intro budget sols v hreturns
    have hin := hreturns.inBudget
    exact ⟨hin.nodes_le, hin.isExplored⟩

end Effects

/-- The search of the chain for the greatest first value explores five nodes and finds two solutions.
With a limit of three or four the first one is left, and with a limit of five both are found, and yet
the search is interrupted, as it has not seen that there is nothing left. -/
theorem collect_within_upTo_chain :
    ∃ found t, (start Model.chain (some (.maximize ⟨0⟩)) .info).collect 10 10 = .ok (found, t) ∧
      t.progress ≠ .running ∧ t.counters.nodes = 5 ∧ found.map Prod.snd = [3, 5] ∧
      ∀ limit, ∃ u,
        ((start Model.chain (some (.maximize ⟨0⟩)) .info).within (.upTo limit)).collect 10 10 =
          .ok (found.filter fun x => x.2 ≤ limit, u) ∧
        (limit ≤ t.counters.nodes → u.progress = .interrupted ∧ u.counters.nodes = limit) ∧
        (t.counters.nodes < limit → u.progress = .exhausted ∧ u.counters = t.counters) := by
  obtain ⟨found, t, hcollect, hended, hnodes, hstamps⟩ :
      ∃ found t, (start Model.chain (some (.maximize ⟨0⟩)) .info).collect 10 10 = .ok (found, t) ∧
        t.progress ≠ .running ∧ t.counters.nodes = 5 ∧ found.map Prod.snd = [3, 5] :=
    ⟨_, _, rfl, Progress.noConfusion, rfl, rfl⟩
  exact ⟨found, t, hcollect, hended, hnodes, hstamps,
    (collect_within_upTo Model.chain (some (.maximize ⟨0⟩)) .info).1 hcollect hended⟩

end Search

end FiniteDomain
