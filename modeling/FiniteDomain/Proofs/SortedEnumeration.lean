import FiniteDomain.Proofs.SearchRecords
import FiniteDomain.Proofs.Termination

/-!
# Sorted enumeration

A single labelling that takes the variables in the order of a list makes an enumeration a listing: read in
that order, its solutions are the satisfying assignments as tuples of values, sorted, each of them once.

Three facts make this up.  The solutions are found in the order of their assignments, since every choice
has its alternatives in this order.  An assignment that is read off a solution satisfies the constraints.
And no satisfying assignment is missed, since the search comes to its end and is not interrupted.
-/

namespace FiniteDomain

namespace Search

section Trails

variable {P B : Type} [Propagator P] [Brancher B] {r s t : Search P B} {sols found : List Solution}
  {length : Nat}

theorem Steps.afterTrail (hrs : r.Steps sols s) (h : Trail length s found t) :
    r.Steps (sols ++ found) t := by
  induction h generalizing sols with
  | stop s =>
      rw [List.append_nil]
      exact hrs
  | step _ hstep _ ih =>
      rw [← List.append_assoc]
      exact ih (hrs.step (step_of_step_eq_ok hstep))

end Trails

variable {before : (Var → Int) → (Var → Int) → Prop} {root : Model} {ps : List Posting}
  {xs : List Var} {preference : Preference} {sols : List Solution}
  {s : Search Constraint Strategy}

/-- An enumeration comes to its end, with what it has found on the way. -/
theorem exists_sweeps_enumerate (hsound : root.Sound ps) (hknows : root.Knows)
    (hsplitting : Splitting root) (hdirects : Directs before root ps) (verbosity : Level) :
    ∃ length sols t, Trail length (enumerate root .unlimited verbosity) sols t ∧
      length ≤ (root.store.weight + 1) ^ root.store.weight + 1 ∧ t.progress = .exhausted ∧
      t.objective = none ∧ Sweeps before root ps sols t := by
  have hsafe : Safe root ps (enumerate root .unlimited verbosity) := safe_start (Or.inl rfl)
  have htapers : Tapers (enumerate root .unlimited verbosity) := tapers_start rfl
  obtain ⟨length, sols, t, htrail, hlength, hended⟩ :=
    htapers.exists_trail (fun _ => hsound) hknows hsplitting.policies hsafe
  rw [rank_start rfl rfl] at hlength
  have hbudget : t.InBudget .unlimited :=
    htrail.invariant InBudget.afterStep (inBudget_start root none verbosity .unlimited)
  have hsteps : (enumerate root .unlimited verbosity).Steps sols t := Steps.refl.afterTrail htrail
  exact ⟨length, sols, t, htrail, hlength, hbudget.exhausted hended, hsteps.objective,
    sweeps_of_steps hsound hsplitting hdirects rfl rfl rfl hsteps⟩

/-- The tuples of values of the solutions are those of the satisfying assignments. -/
theorem Sweeps.mem_tuples_iff (hs : Sweeps before root ps sols s) (hsound : root.Sound ps)
    (hdistinct : ∀ p ∈ ps, p.Distinct) (hlabelled : root.Labelled)
    (hxs : ∀ x ∈ xs, root.store.Has x) (hnone : s.objective = none)
    (hended : s.progress = .exhausted) (tuple : List Int) :
    tuple ∈ sols.map (fun sol => xs.map sol.assignment) ↔
      ∃ value ∈ root.satisfying ps, xs.map value = tuple := by
  rw [List.mem_map]
  constructor
  · rintro ⟨sol, hsol, rfl⟩
    have hmem := (hs.answers sol hsol).assignment_mem hsound hdistinct hlabelled
    exact ⟨sol.assignment, hmem, rfl⟩
  · rintro ⟨value, hvalue, rfl⟩
    obtain ⟨sol, hsol, hallows⟩ := hs.exists_solution hnone hended hvalue
    refine ⟨sol, hsol, List.map_congr_left fun x hx => ?_⟩
    have hanswer := hs.answers sol hsol
    have hmem := hallows x _ (Store.domain_of_has (hanswer.below.has_iff.mpr (hxs x hx)))
    rw [hanswer.view_eq hlabelled (hxs x hx)] at hmem
    exact le_antisymm hmem.1 hmem.2

theorem knows_of_policies
    (hpolicies : root.policies = [.labelling (.ofVars xs .first preference)])
    (hxs : ∀ x ∈ xs, root.store.Has x) : root.Knows := by
  intro b hb
  rw [hpolicies, List.mem_singleton] at hb
  rw [hb]
  exact ⟨trivial, hxs⟩

/-- If a single labelling takes all variables in the order of a list, calls return solutions whose tuples
of values are the satisfying ones, sorted, and after the last one the search is over. -/
theorem enumerate_sorted {asked : Table Interval} (hroot : Model.Reachable asked ps root)
    (hfine : root.store.failure = none) (hdistinct : ∀ p ∈ ps, p.Distinct)
    (hpolicies : root.policies = [.labelling (.ofVars xs .first preference)])
    (hfits : xs.length ≤ Choice.positions) (hall : ∀ x, root.store.Has x ↔ x ∈ xs)
    (verbosity : Level) :
    ∃ (sols : List Solution) (tuples : List (List Int)),
      (∀ fuel ≥ (root.store.weight + 1) ^ root.store.weight + 1, ∀ calls, ∃ t,
        (enumerate root .unlimited verbosity).replies fuel calls =
          .ok ((sols.map some).take calls ++ List.replicate (calls - sols.length) none, t) ∧
        (sols.length < calls → t.progress = .exhausted)) ∧
      sols.map (·.values xs) = tuples.map (fun tuple => .ok (some tuple)) ∧
      tuples.Pairwise (List.Lex preference.Sooner) ∧
      ∀ tuple, tuple ∈ tuples ↔ ∃ value ∈ root.satisfying ps, xs.map value = tuple := by
  have hsound := hroot.sound hfine
  have hxs : ∀ x ∈ xs, root.store.Has x := fun x hx => (hall x).mpr hx
  have hlabelled := labelled_of_policies hpolicies fun x hx => (hall x).mp hx
  have hdirects : Directs (preference.Before xs) root ps := directs_labelling hpolicies hfits
  obtain ⟨length, sols, t, htrail, hlength, hended, hnone, hsweeps⟩ :=
    exists_sweeps_enumerate hsound (knows_of_policies hpolicies hxs)
      (splitting_of_policies hpolicies hfits) hdirects verbosity
  refine ⟨sols, sols.map fun sol => xs.map sol.assignment, ?_, ?_, ?_, ?_⟩
  · intro fuel hfuel calls
    have hover : t.progress ≠ .running := by
      rw [hended]
      exact Progress.noConfusion
    obtain ⟨u, hreplies, hlast⟩ := htrail.replies_eq_ok hover (hlength.trans hfuel) calls
    refine ⟨u, hreplies, fun hless => ?_⟩
    rw [hlast hless]
    exact hended
  · rw [List.map_map]
    exact List.map_congr_left fun sol hsol => (hsweeps.answers sol hsol).values_eq hlabelled hxs
  · exact List.pairwise_map.mpr hsweeps.pairwise
  · exact hsweeps.mem_tuples_iff hsound hdistinct hlabelled hxs hnone hended

/-- The chain has the tuple of 0 and 1, but not that of 1 and 1. -/
theorem enumerate_sorted_chain :
    ∃ (sols : List Solution) (tuples : List (List Int)),
      (∀ fuel ≥ (Model.chain.store.weight + 1) ^ Model.chain.store.weight + 1, ∀ calls, ∃ t,
        (enumerate Model.chain .unlimited .info).replies fuel calls =
          .ok ((sols.map some).take calls ++ List.replicate (calls - sols.length) none, t) ∧
        (sols.length < calls → t.progress = .exhausted)) ∧
      sols.map (·.values [⟨0⟩, ⟨1⟩]) = tuples.map (fun tuple => .ok (some tuple)) ∧
      tuples.Pairwise (List.Lex Preference.least.Sooner) ∧ [0, 1] ∈ tuples ∧ [1, 1] ∉ tuples := by
  have hpolicies : Model.chain.policies = [.labelling (.ofVars [⟨0⟩, ⟨1⟩] .first .least)] := rfl
  have hall : ∀ x, Model.chain.store.Has x ↔ x ∈ [(⟨0⟩ : Var), ⟨1⟩] := by
    rintro ⟨k⟩
    change k < 2 ↔ _
    simp only [List.mem_cons, Var.mk.injEq, List.not_mem_nil, or_false]
    omega
  obtain ⟨sols, tuples, hreplies, hvalues, hsorted, hmem⟩ := enumerate_sorted Model.reachable_chain
    rfl (by decide) hpolicies (by decide) hall .info
  refine ⟨sols, tuples, hreplies, hvalues, hsorted, ?_, ?_⟩
  · rw [hmem]
    exact ⟨fun x => x.index, ⟨by decide, by decide⟩, rfl⟩
  · rw [hmem]
    rintro ⟨value, ⟨-, hholds⟩, htuple⟩
    have hless : value ⟨0⟩ + 1 ≤ value ⟨1⟩ := hholds _ (List.mem_singleton_self _)
    simp only [List.map_cons, List.map_nil, List.cons.injEq] at htuple
    omega

end Search

end FiniteDomain
