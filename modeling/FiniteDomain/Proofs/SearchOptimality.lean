import FiniteDomain.Proofs.SearchCompleteness

/-!
# Optimality of search

Each solution of a search with an objective is better than the ones before, and no assignment in the
boxes of the solutions improves on the last one.  The bound reaches an open node only when its next
alternative is visited, but the regions of open nodes keep every assignment that improves on the best
solution all the same.  Once no region is left, nothing improves on the last solution.
-/

namespace FiniteDomain

/-- Is the first value strictly better than the second? -/
def Objective.Prefers (v w : Int) : Objective → Prop
  | minimize _ => v < w
  | maximize _ => w < v

namespace Objective

variable {objective : Objective} {v w : Int}

theorem mem_better (hleast : Word.minValue ≤ v) (hgreatest : v ≤ Word.maxValue)
    (h : objective.Prefers v w) : v ∈ objective.better w := by
  simp only [Word.minValue, Word.maxValue] at hleast hgreatest
  cases objective with
  | minimize x =>
      simp only [Prefers] at h
      simp only [better, Interval.mem_iff, Word.least]
      omega
  | maximize x =>
      simp only [Prefers] at h
      simp only [better, Interval.mem_iff, Word.greatest]
      omega

theorem has_of_bestIn_eq_ok {s : Store} (h : objective.bestIn s = .ok v) :
    s.Has objective.var := by
  cases objective with
  | minimize x =>
      rcases Fault.bind_eq_ok_iff.mp h with ⟨d, hd, -⟩
      exact (Store.domain_eq_ok_iff.mp hd).1
  | maximize x =>
      rcases Fault.bind_eq_ok_iff.mp h with ⟨d, hd, -⟩
      exact (Store.domain_eq_ok_iff.mp hd).1

theorem eq_of_bestIn_eq_ok {s : Store} (hvalue : s.value? objective.var = .ok (some w))
    (h : objective.bestIn s = .ok v) : v = w := by
  rcases Store.value?_eq_some_iff.mp hvalue with ⟨hhas, hview⟩
  cases objective with
  | minimize x =>
      change s.lower x = .ok v at h
      change s.view x = .singleton w at hview
      change s.Has x at hhas
      rw [Store.lower_of_has hhas, hview, Except.ok.injEq] at h
      exact h.symm
  | maximize x =>
      change s.upper x = .ok v at h
      change s.view x = .singleton w at hview
      change s.Has x at hhas
      rw [Store.upper_of_has hhas, hview, Except.ok.injEq] at h
      exact h.symm

end Objective

namespace Search

variable {root n : Model} {ps : List Posting} {s t : Search Constraint Strategy}
  {sol : Option Solution} {sols : List Solution} {objective : Objective}

theorem improving_congr (hobjective : t.objective = s.objective) (hbest : t.best = s.best) :
    t.improving = s.improving := by
  unfold improving
  rw [hobjective, hbest]

/-- The invariant of the best value: it is that of the last solution, on which no assignment of any
solution improves. -/
structure Improves (objective : Objective) (sols : List Solution)
    (s : Search Constraint Strategy) : Prop where
  objective_eq : s.objective = some objective
  spent : ∀ sol ∈ sols, Separate sol.store.box s.improving
  best_eq_none : sols = [] → s.best = none
  best_eq_some : ∀ sol, sols.getLast? = some sol →
    ∃ value, objective.bestIn sol.store = .ok value ∧ s.best = some value

theorem Improves.congr (hs : Improves objective sols s) (hobjective : t.objective = s.objective)
    (hbest : t.best = s.best) : Improves objective sols t where
  objective_eq := hobjective.trans hs.objective_eq
  spent := by
    rw [improving_congr hobjective hbest]
    exact hs.spent
  best_eq_none hnone := hbest.trans (hs.best_eq_none hnone)
  best_eq_some last hlast := by
    rw [hbest]
    exact hs.best_eq_some last hlast

theorem Improves.afterVisit (hs : Improves objective sols s) (hn : root.Descends ps n)
    (h : Visit s n t sol) : Improves objective (sols ++ sol.toList) t := by
  cases h with
  | unimproved =>
      rw [Option.toList_none, List.append_nil]
      exact hs.congr rfl rfl
  | failed =>
      rw [Option.toList_none, List.append_nil]
      exact hs.congr rfl rfl
  | split =>
      rw [Option.toList_none, List.append_nil]
      exact hs.congr rfl rfl
  | @solved n₁ n₂ n₃ events best counters hconstrain hpropagate hchoose hbest =>
      obtain ⟨hn₃, hstore, hsub, -, -⟩ := box_of_visit hn hconstrain hpropagate hchoose
      rw [← hstore] at hsub
      obtain ⟨value, hvalue, rfl⟩ := bestAfter_eq_ok hs.objective_eq hbest
      refine ⟨hs.objective_eq, ?_, by simp, ?_⟩
      · intro a ha
        rcases List.mem_append.mp ha with ha | ha
        · have hless : improving { s with best := some value, counters := counters } ⊆
              s.improving :=
            improving_of_bestAfter hconstrain hn₃.sound.consistent hsub hbest
          exact (hs.spent a ha).mono subset_rfl hless
        · obtain rfl : a = ⟨n₃.store⟩ := by simpa using ha
          intro other hallows hbetter
          have hworse := (Objective.bestIn_eq_ok hn₃.sound.consistent hvalue).2 other hallows
          exact hworse (hbetter objective value hs.objective_eq rfl)
      · intro last hlast
        obtain rfl : (⟨n₃.store⟩ : Solution) = last := by simpa using hlast
        exact ⟨value, hvalue, rfl⟩

/-- A step visits a node below the root, or finds nothing. -/
theorem Explores.visit_of_step (hroot : root.Sound ps) (hs : Explores root ps s)
    (h : Step s t sol) :
    (sol = none ∧ t.objective = s.objective ∧ t.best = s.best) ∨
      ∃ (u : Search Constraint Strategy) (n : Model), u.objective = s.objective ∧
        u.best = s.best ∧ root.Descends ps n ∧ Visit u n t sol := by
  cases h with
  | finished => exact Or.inl ⟨rfl, rfl, rfl⟩
  | interrupted => exact Or.inl ⟨rfl, rfl, rfl⟩
  | exhausted => exact Or.inl ⟨rfl, rfl, rfl⟩
  | dropped => exact Or.inl ⟨rfl, rfl, rfl⟩
  | @root n _ _ hprogress hsome hvisit =>
      refine Or.inr ⟨{ s with root := none }, n, rfl, rfl, ?_, hvisit⟩
      rw [hs.untouched n hsome]
      exact hroot.descends
  | @child top below n _ _ hprogress hnone hstack hcommit hvisit =>
      have htop := hs.descends top (hstack ▸ List.mem_cons_self)
      have hfine := ((box_of_commit hcommit htop.sound.consistent.failure).2 rfl).1
      have hn := htop.afterCommit hcommit hfine
      exact Or.inr ⟨{ s with stack := remainder top below }, n, rfl, rfl, hn, hvisit⟩

theorem Improves.afterSteps (hroot : root.Sound ps) (hexplores : Explores root ps s)
    (hs : Improves objective [] s) (h : s.Steps sols t) : Improves objective sols t := by
  induction h with
  | refl => exact hs
  | @step u v found sol hsteps hstep ih =>
      have hu := (hexplores.afterSteps (fun _ => hroot) hsteps).1
      rcases hu.visit_of_step hroot hstep with
        ⟨rfl, hobjective, hbest⟩ | ⟨w, n, hobjective, hbest, hn, hvisit⟩
      · rw [Option.toList_none, List.append_nil]
        exact ih.congr hobjective hbest
      · exact (ih.congr hobjective hbest).afterVisit hn hvisit

end Search

/-- Each variable of the model is one that some labelling binds. -/
def Model.Labelled (m : Model) : Prop :=
  ∀ x, m.store.Has x → ∃ b ∈ m.branchers, x ∈ b.labels

/-- The values of a solution, where it binds the variables. -/
def Solution.assignment (sol : Solution) : Var → Int :=
  fun x => (sol.store.view x).lb

theorem Solution.allows_assignment (sol : Solution) (hs : sol.store.Consistent) :
    sol.store.Allows sol.assignment := by
  intro x d hd
  rcases Store.domain_eq_ok_iff.mp hd with ⟨-, rfl⟩
  exact ⟨le_rfl, hs.view x⟩

/-- Where each variable is bound, a solution tells the values. -/
theorem Solution.values_eq_some {sol : Solution} {value : Var → Int} {xs : List Var}
    (h : ∀ x ∈ xs, sol.store.value? x = .ok (some (value x))) :
    sol.values xs = .ok (some (xs.map value)) := by
  induction xs with
  | nil => rfl
  | cons x rest ih =>
      obtain ⟨hx, hrest⟩ := List.forall_mem_cons.mp h
      unfold values
      rw [hx, ih hrest]
      rfl

namespace Model.Answers

variable {root : Model} {ps : List Posting} {sol : Solution}

theorem binds (h : root.Answers ps sol) (hlabelled : root.Labelled) {x : Var}
    (hx : root.store.Has x) : sol.store.value? x = .ok (some (sol.assignment x)) := by
  obtain ⟨b, hb, hlabel⟩ := hlabelled x hx
  have hpolicy : b.rewound ∈ root.policies :=
    List.mem_map_of_mem (Array.mem_toList_iff.mpr hb)
  rw [← Strategy.labels_rewound] at hlabel
  obtain ⟨hhas, hbound⟩ := h.decided _ hpolicy x hlabel
  rw [Store.value?_of_has hhas]
  unfold Interval.value? Solution.assignment
  rw [if_pos hbound]

theorem values_eq (h : root.Answers ps sol) (hlabelled : root.Labelled) {xs : List Var}
    (hxs : ∀ x ∈ xs, root.store.Has x) :
    sol.values xs = .ok (some (xs.map sol.assignment)) :=
  Solution.values_eq_some fun x hx => h.binds hlabelled (hxs x hx)

theorem assignment_mem (hroot : root.Sound ps) (h : root.Answers ps sol)
    (hdistinct : ∀ p ∈ ps, p.Distinct) (hlabelled : root.Labelled) :
    sol.assignment ∈ root.satisfying ps := by
  constructor
  · exact h.below.box_subset (sol.allows_assignment h.consistent)
  · intro p hp
    apply h.holds hp (hdistinct p hp)
    intro x hx
    have hhas := hroot.coherent.has _ (hroot.mem_propagators hp) x hx
    exact h.binds hlabelled hhas

end Model.Answers

namespace Search

variable {root : Model} {ps : List Posting} {objective : Objective}
  {s : Search Constraint Strategy} {sols : List Solution}

theorem not_improving_of_ended (hcovers : Covers root ps sols [] s)
    (himproves : Improves objective sols s) (hended : s.progress = .exhausted) :
    ∀ value ∈ root.satisfying ps, value ∉ s.improving := by
  intro value hvalue hbetter
  obtain ⟨sol, hsol, hallows⟩ := hcovers.exists_solution hended ⟨hvalue, hbetter⟩
  exact himproves.spent sol hsol value hallows hbetter

/-- The best value of the last solution is the optimum, when nothing improves on it. -/
theorem Improves.optimum (himproves : Improves objective sols s) (hroot : root.Sound ps)
    (hnone : ∀ value ∈ root.satisfying ps, value ∉ s.improving) {sol : Solution}
    (hsol : sols.getLast? = some sol) (hanswer : root.Answers ps sol)
    (hlabelled : root.Labelled) :
    s.best = some (sol.assignment objective.var) ∧
      ∀ other ∈ root.satisfying ps,
        ¬ objective.Prefers (other objective.var) (sol.assignment objective.var) := by
  obtain ⟨value, hvalue, hbest⟩ := himproves.best_eq_some sol hsol
  have hhas : root.store.Has objective.var :=
    hanswer.below.has_iff.mp (Objective.has_of_bestIn_eq_ok hvalue)
  have hsame := Objective.eq_of_bestIn_eq_ok (hanswer.binds hlabelled hhas) hvalue
  rw [hsame] at hbest
  refine ⟨hbest, ?_⟩
  intro other hother hprefers
  apply hnone other hother
  intro objective' best' hobjective' hbest'
  rw [himproves.objective_eq, Option.some.injEq] at hobjective'
  rw [hbest, Option.some.injEq] at hbest'
  subst hobjective' hbest'
  have hmem := hother.1 _ _ (Store.domain_of_has hhas)
  have hleast := (hroot.consistent.least _).trans hmem.1
  have hgreatest := hmem.2.trans (hroot.consistent.greatest _)
  exact Objective.mem_better hleast hgreatest hprefers

/-- A search with an objective that comes to its end has the optimum as its last solution, or has
found that there is none. -/
theorem last_optimal {asked : Table Interval} {budget : Budget} {verbosity : Level} {fuel : Nat}
    {o : Outcome Constraint Strategy} (hroot : Model.Reachable asked ps root)
    (hfine : root.store.failure = none) (hdistinct : ∀ p ∈ ps, p.Distinct)
    (hsplitting : Splitting root) (hlabelled : root.Labelled)
    (hlast : (optimize root objective budget verbosity).last fuel = .ok o)
    (hended : o.search.progress = .exhausted) :
    (o.solution = none ↔ root.satisfying ps = ∅) ∧
      ∀ sol, o.solution = some sol → ∃ value ∈ root.satisfying ps,
        (∀ x, root.store.Has x → sol.store.value? x = .ok (some (value x))) ∧
          o.search.best = some (value objective.var) ∧
            ∀ other ∈ root.satisfying ps,
              ¬ objective.Prefers (other objective.var) (value objective.var) := by
  obtain ⟨sols, hreturns, hsol⟩ := returns_of_last_eq_ok hlast
  have hsound := hroot.sound hfine
  have hstart : Covers root ps [] [] (optimize root objective budget verbosity) :=
    covers_start rfl rfl rfl
  have hcovers := hstart.afterSteps hsound hsplitting hreturns.steps
  have hanswers := (hstart.explores.afterSteps (fun _ => hsound) hreturns.steps).2
  have hnothing : Improves objective [] (optimize root objective budget verbosity) :=
    ⟨rfl, by simp, fun _ => rfl, by simp⟩
  have himproves := hnothing.afterSteps hsound hstart.explores hreturns.steps
  have hspent := not_improving_of_ended hcovers himproves hended
  rw [hsol]
  constructor
  · rw [List.getLast?_eq_none_iff]
    constructor
    · intro hnone
      rw [Set.eq_empty_iff_forall_notMem]
      intro value hvalue
      -- without a best value everything improves
      apply hspent value hvalue
      intro _ best _ hbest
      rw [himproves.best_eq_none hnone] at hbest
      contradiction
    · intro hempty
      rw [List.eq_nil_iff_forall_not_mem]
      intro a ha
      have hmem := (hanswers a ha).assignment_mem hsound hdistinct hlabelled
      rw [hempty] at hmem
      exact hmem
  · intro sol hlastSol
    have hanswer := hanswers sol (List.mem_of_getLast? hlastSol)
    obtain ⟨hbest, hoptimal⟩ := himproves.optimum hsound hspent hlastSol hanswer hlabelled
    have hmem := hanswer.assignment_mem hsound hdistinct hlabelled
    exact ⟨sol.assignment, hmem, fun x hx => hanswer.binds hlabelled hx, hbest, hoptimal⟩

/-- The greatest end of the chain is 2, which the second solution has found. -/
theorem last_optimal_chain :
    ∃ o, (optimize Model.chain (.maximize ⟨1⟩) .unlimited .info).last 20 = .ok o ∧
      o.search.progress = .exhausted ∧ o.search.best = some 2 ∧
        ∀ value ∈ Model.chain.satisfying [.precedence ⟨0⟩ 1 ⟨1⟩], value ⟨1⟩ ≤ 2 := by
  obtain ⟨o, hlast, hended, hsol, hbest⟩ :
      ∃ o, (optimize Model.chain (.maximize ⟨1⟩) .unlimited .info).last 20 = .ok o ∧
        o.search.progress = .exhausted ∧
          o.solution = some ⟨⟨#[⟨0, 0⟩, ⟨2, 2⟩], #[], none⟩⟩ ∧ o.search.best = some 2 :=
    ⟨_, rfl, rfl, rfl, rfl⟩
  have hlabelled : Model.chain.Labelled := by
    rintro ⟨k⟩ hk
    have hb : Model.chain.branchers[0]? = some (.labelling (.ascending [⟨0⟩, ⟨1⟩])) := rfl
    refine ⟨_, Array.mem_of_getElem? hb, ?_⟩
    have hlt : k < 2 := hk
    interval_cases k <;> decide
  have hoptimal := last_optimal Model.reachable_chain rfl (by decide) splitting_chain hlabelled
    hlast hended
  obtain ⟨value, hvalue, -, hsame, hgreatest⟩ := hoptimal.2 _ hsol
  refine ⟨o, hlast, hended, hbest, ?_⟩
  intro other hother
  have hnot := hgreatest other hother
  rw [hbest, Option.some.injEq] at hsame
  simp only [Objective.Prefers, Objective.var] at hnot hsame
  omega

end Search

end FiniteDomain
