import FiniteDomain.Proofs.Budgeting
import FiniteDomain.Proofs.NarrowingUpdates
import FiniteDomain.Proofs.SearchOptimality

/-!
# Strict improvement

With an objective, each solution is strictly better than the one before, whatever the propagators and
branchers are.  Open nodes may have been made long before the best solution was found, and the domain of
the objective need not be bound in a solution.  What counts is the visit: it asks the node to improve on
the best value there is, and the domain that is left has a value and only better ones.  Propagators that
narrow keep it so, and a brancher that is asked for a choice does not touch it.  What a commit has done to
the store before the visit does not matter.

The best value that the search keeps is the one of the last solution, so a better value than this one is a
better value than all before.
-/

namespace FiniteDomain

namespace Objective

variable {objective : Objective} {u v w : Int} {s : Store}

theorem Prefers.trans (huv : objective.Prefers u v) (hvw : objective.Prefers v w) :
    objective.Prefers u w := by
  cases objective with
  | minimize x => exact Int.lt_trans huv hvw
  | maximize x => exact Int.lt_trans hvw huv

/-- The best value of a domain that has only better ones. -/
theorem prefers_of_bestIn (h : objective.bestIn s = .ok v)
    (hne : (s.view objective.var).lb ≤ (s.view objective.var).ub)
    (hle : s.view objective.var ≤ objective.better w) : objective.Prefers v w := by
  have hhas := has_of_bestIn_eq_ok h
  cases objective with
  | minimize x =>
      change s.Has x at hhas
      change s.lower x = .ok v at h
      rw [Store.lower_of_has hhas, Except.ok.injEq] at h
      have hupper : (s.view x).ub ≤ w - 1 := hle.2
      have hlower : (s.view x).lb ≤ (s.view x).ub := hne
      change v < w
      omega
  | maximize x =>
      change s.Has x at hhas
      change s.upper x = .ok v at h
      rw [Store.upper_of_has hhas, Except.ok.injEq] at h
      have hlower : w + 1 ≤ (s.view x).lb := hle.1
      have hupper : (s.view x).lb ≤ (s.view x).ub := hne
      change w < v
      omega

end Objective

namespace Search

variable {P B : Type} {s t : Search P B} {n n₁ n₂ n₃ : Node P B} {objective : Objective}
  {best value : Int} {sols : List Solution} {sol : Option Solution} {values : List Int}

/-- A node that has been asked to improve on the best value, and was able to, has better values left and
no others. -/
theorem better_of_constrain (hobjective : s.objective = some objective) (hbest : s.best = some best)
    (h : s.constrain n = .ok (none, n₁)) :
    (n₁.store.view objective.var).lb ≤ (n₁.store.view objective.var).ub ∧
      n₁.store.view objective.var ≤ objective.better best := by
  rcases constrain_eq_ok h with ⟨-, -, hnone⟩ | ⟨o, b, reply, ho, hb, hnarrow, -, hreply⟩
  · rw [hobjective, hbest] at hnone
    simp at hnone
  · obtain rfl := Option.some.inj (hobjective.symm.trans ho)
    obtain rfl := Option.some.inj (hbest.symm.trans hb)
    obtain ⟨changed, rfl⟩ := hreply.mp rfl
    rcases Store.narrow_cases hnarrow with ⟨w, hw, -⟩ | ⟨-, hhas, hne, -, hstore⟩
    · contradiction
    · rw [hstore, Store.view_cut hhas, View.cut_self]
      refine ⟨hne, ?_⟩
      simp only [Interval.le_iff, Interval.lb_inter, Interval.ub_inter]
      exact ⟨le_max_right _ _, min_le_right _ _⟩

/-- The values of the solutions get better, and the best value is the last one. -/
structure Climbs (objective : Objective) (sols : List Solution) (values : List Int)
    (s : Search P B) : Prop where
  objective_eq : s.objective = some objective
  attained : sols.map (fun sol => objective.bestIn sol.store) = values.map .ok
  chain : values.IsChain fun v w => objective.Prefers w v
  best_eq : s.best = values.getLast?

theorem Climbs.congr (hs : Climbs objective sols values s) (hobjective : t.objective = s.objective)
    (hbest : t.best = s.best) : Climbs objective (sols ++ (none : Option Solution).toList) values t where
  objective_eq := hobjective.trans hs.objective_eq
  attained := by
    rw [Option.toList_none, List.append_nil]
    exact hs.attained
  chain := hs.chain
  best_eq := hbest.trans hs.best_eq

section Effects

variable [Propagator P] [Brancher B]

/-- A solution improves on the best value with which its node was visited. -/
theorem prefers_of_solved (hnarrows : ∀ p : P, (Propagator.propagate p).Narrows)
    (hobjective : s.objective = some objective) (hbest : s.best = some best) {events : List Event}
    (hconstrain : s.constrain n = .ok (none, n₁))
    (hpropagate : n₁.propagate = .ok (none, events, n₂)) (hchoose : n₂.choose = .ok (none, n₃))
    (hvalue : objective.bestIn n₃.store = .ok value) : objective.Prefers value best := by
  obtain ⟨hne, hle⟩ := better_of_constrain hobjective hbest hconstrain
  obtain ⟨r, hr, -, -, hn₂⟩ := Node.propagate_eq_ok hpropagate
  have hshrinks : n₁.store.Shrinks n₃.store := by
    rw [(Node.choose_frame hchoose).1, hn₂]
    exact Engine.propagate_shrinks hnarrows hr
  have hsub := (Store.Below.of_shrinks hshrinks).view objective.var
  exact Objective.prefers_of_bestIn hvalue (hshrinks.lb_le_ub hne) (hsub.trans hle)

theorem Climbs.afterVisit (hnarrows : ∀ p : P, (Propagator.propagate p).Narrows)
    (hs : Climbs objective sols values s) (h : Visit s n t sol) :
    ∃ values', Climbs objective (sols ++ sol.toList) values' t := by
  cases h with
  | unimproved => exact ⟨values, hs.congr rfl rfl⟩
  | failed => exact ⟨values, hs.congr rfl rfl⟩
  | split => exact ⟨values, hs.congr rfl rfl⟩
  | @solved n₁ n₂ n₃ events best counters hconstrain hpropagate hchoose hbest =>
      obtain ⟨value, hvalue, rfl⟩ := bestAfter_eq_ok hs.objective_eq hbest
      refine ⟨values ++ [value], hs.objective_eq, ?_, ?_, ?_⟩
      · rw [List.map_append, List.map_append, hs.attained]
        simp [hvalue]
      · refine List.isChain_append.mpr ⟨hs.chain, List.isChain_singleton value, ?_⟩
        intro last hlast first hfirst
        obtain rfl : value = first := by simpa using hfirst
        have hlastBest : s.best = some last := hs.best_eq.trans hlast
        exact prefers_of_solved hnarrows hs.objective_eq hlastBest hconstrain hpropagate hchoose hvalue
      · simp

/-- A step finds nothing, or it visits a node, whichever it is. -/
theorem Climbs.afterStep (hnarrows : ∀ p : P, (Propagator.propagate p).Narrows)
    (hs : Climbs objective sols values s) (h : Step s t sol) :
    ∃ values', Climbs objective (sols ++ sol.toList) values' t := by
  cases h with
  | finished => exact ⟨values, hs.congr rfl rfl⟩
  | interrupted => exact ⟨values, hs.congr rfl rfl⟩
  | exhausted => exact ⟨values, hs.congr rfl rfl⟩
  | dropped => exact ⟨values, hs.congr rfl rfl⟩
  | root _ _ hvisit =>
      have htaken : Climbs objective sols values { s with root := none } :=
        ⟨hs.objective_eq, hs.attained, hs.chain, hs.best_eq⟩
      exact htaken.afterVisit hnarrows hvisit
  | @child top below n _ _ _ _ _ _ hvisit =>
      have htaken : Climbs objective sols values { s with stack := remainder top below } :=
        ⟨hs.objective_eq, hs.attained, hs.chain, hs.best_eq⟩
      exact htaken.afterVisit hnarrows hvisit

theorem Climbs.afterSteps (hnarrows : ∀ p : P, (Propagator.propagate p).Narrows)
    (hs : Climbs objective [] [] s) (h : s.Steps sols t) :
    ∃ values, Climbs objective sols values t := by
  induction h with
  | refl => exact ⟨[], hs⟩
  | step _ hstep ih =>
      obtain ⟨values, hvalues⟩ := ih
      exact hvalues.afterStep hnarrows hstep

/-- The values of the solutions that calls have returned get strictly better from each to the next, and the
best value of the search is the last of them. -/
theorem optimize_strictly_improves {root : Node P B} {budget : Budget} {verbosity : Level}
    (hnarrows : ∀ p : P, (Propagator.propagate p).Narrows)
    (hreturns : (optimize root objective budget verbosity).Returns sols t) :
    ∃ values : List Int, sols.map (fun sol => objective.bestIn sol.store) = values.map .ok ∧
      values.Pairwise (fun v w => objective.Prefers w v) ∧ t.best = values.getLast? := by
  have hstart : Climbs objective [] [] (optimize root objective budget verbosity) :=
    ⟨rfl, rfl, .nil, rfl⟩
  obtain ⟨values, hvalues⟩ := hstart.afterSteps hnarrows hreturns.steps
  have htrans : IsTrans Int fun v w => objective.Prefers w v := ⟨fun _ _ _ h h' => h'.trans h⟩
  exact ⟨values, hvalues.attained, List.isChain_iff_pairwise.mp hvalues.chain, hvalues.best_eq⟩

end Effects

/-- The first variable is 3 or 0, tried in this order, and not above the second one, which nobody
decides. -/
def ceiling : Model :=
  let (x, m) := (Node.empty : Model).newVar 0 3
  let (y, m) := m.newVar 0 9
  let m : Model := (Model.postPrecedence m x 0 y).2
  (m.branch (.caseSplit ⟨x, #[⟨3, 3⟩, ⟨0, 0⟩]⟩)).2

/-- With the ceiling as the objective, its least value goes down from 3 to 0, and it is never bound. -/
theorem optimize_strictly_improves_ceiling :
    ∃ sols t, (optimize ceiling (.minimize ⟨1⟩) (.upTo 9) .info).Returns sols t ∧
      sols.map (·.store.domains) = [#[⟨3, 3⟩, ⟨3, 9⟩], #[⟨0, 0⟩, ⟨0, 2⟩]] ∧ t.best = some 0 ∧
      ∃ values : List Int,
        sols.map (fun sol => (Objective.minimize ⟨1⟩).bestIn sol.store) = values.map .ok ∧
        values.Pairwise (fun v w => (Objective.minimize ⟨1⟩).Prefers w v) ∧
        t.best = values.getLast? := by
  obtain ⟨found, t, hcollect, hdomains, hbest⟩ :
      ∃ found t, (optimize ceiling (.minimize ⟨1⟩) (.upTo 9) .info).collect 10 10 = .ok (found, t) ∧
        (found.map Prod.fst).map (·.store.domains) = [#[⟨3, 3⟩, ⟨3, 9⟩], #[⟨0, 0⟩, ⟨0, 2⟩]] ∧
        t.best = some 0 :=
    ⟨_, _, rfl, rfl, rfl⟩
  have hreturns := returns_of_collect .start hcollect
  exact ⟨_, t, hreturns, hdomains, hbest,
    optimize_strictly_improves Constraint.narrows_propagate hreturns⟩

end Search

end FiniteDomain
