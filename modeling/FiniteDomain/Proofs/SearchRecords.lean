import FiniteDomain.Proofs.Budgeting
import FiniteDomain.Proofs.GreatestBox
import FiniteDomain.Proofs.Lexicographic
import FiniteDomain.Proofs.Records

/-!
# Records in a search

With an objective, a search returns the records among the solutions that it would return without.
The trees of the two searches differ.  An objective cuts values away, which decides variables early
and changes the choices, so that nodes of one tree cannot be matched with nodes of the other.  What
both have in common is the order in which they go through the assignments.

An assignment that satisfies the constraints is in a solution that was found, or it comes after a
solution that is at least as good, or it is still ahead of the search.  In the end nothing is ahead.
-/

namespace FiniteDomain

namespace Search

variable {before : (Var → Int) → (Var → Int) → Prop} {objective : Objective} {root n : Model}
  {ps : List Posting} {s t u : Search Constraint Strategy} {sol : Option Solution}
  {sols : List Solution}

/-- The assignment is in a solution, or it comes after a solution that is at least as good, or it
comes after all solutions. -/
def IsSettled (before : (Var → Int) → (Var → Int) → Prop) (objective : Objective)
    (sols : List Solution) (value : Var → Int) : Prop :=
  (∃ sol ∈ sols, sol.store.Allows value) ∨
    (∃ sol ∈ sols, before sol.assignment value ∧
      ¬ objective.Prefers (value objective.var) (objective.valueIn sol)) ∨
    ∀ sol ∈ sols, before sol.assignment value

/-- The invariant of a search whose solutions are to be records. -/
structure Surveys (before : (Var → Int) → (Var → Int) → Prop) (objective : Objective) (root : Model)
    (ps : List Posting) (sols : List Solution) (s : Search Constraint Strategy) : Prop where
  improves : Improves objective sols s
  climbs : sols.Pairwise fun a b =>
    objective.Prefers (objective.valueIn b) (objective.valueIn a)
  ahead : ∀ sol ∈ sols, ∀ value ∈ s.improving,
    objective.Prefers (value objective.var) (objective.valueIn sol)
  settled : ∀ value ∈ root.satisfying ps, IsSettled before objective sols value

theorem Surveys.congr (hs : Surveys before objective root ps sols s)
    (hobjective : t.objective = s.objective) (hbest : t.best = s.best) :
    Surveys before objective root ps sols t where
  improves := hs.improves.congr hobjective hbest
  climbs := hs.climbs
  ahead := by
    rw [improving_congr hobjective hbest]
    exact hs.ahead
  settled := hs.settled

/-- What is better than all solutions improves on the best one. -/
theorem Improves.improving_of_prefers (hs : Improves objective sols s) (hroot : root.Sound ps)
    (hbelow : ∀ sol ∈ sols, sol.store.Below root.store) {value : Var → Int}
    (hvalue : root.store.Allows value)
    (hbetter : ∀ sol ∈ sols, objective.Prefers (value objective.var) (objective.valueIn sol)) :
    value ∈ s.improving := by
  intro objective' best hobjective hbest
  rw [hs.objective_eq, Option.some.injEq] at hobjective
  subst hobjective
  cases hlast : sols.getLast? with
  | none =>
      rw [hs.best_eq_none (List.getLast?_eq_none_iff.mp hlast)] at hbest
      contradiction
  | some sol =>
      have hmem := List.mem_of_getLast? hlast
      obtain ⟨v, hv, hsome⟩ := hs.best_eq_some sol hlast
      rw [hsome, Option.some.injEq] at hbest
      have hhas := (hbelow sol hmem).has_iff.mp (Objective.has_of_bestIn_eq_ok hv)
      have hrange := hvalue _ _ (Store.domain_of_has hhas)
      rw [Interval.mem_iff] at hrange
      have hprefers := hbetter sol hmem
      rw [Objective.valueIn_of_bestIn_eq_ok hv, hbest] at hprefers
      exact Objective.mem_better ((hroot.consistent.least _).trans hrange.1)
        (hrange.2.trans (hroot.consistent.greatest _)) hprefers

/-- What comes after all solutions improves on the best one, or is worse than one of them. -/
theorem Improves.improving_or_worse (hs : Improves objective sols s) (hroot : root.Sound ps)
    (hanswers : ∀ a ∈ sols, root.Answers ps a) {value : Var → Int}
    (hvalue : value ∈ root.satisfying ps) (hall : ∀ sol ∈ sols, before sol.assignment value) :
    value ∈ wanted root ps s ∨ ∃ sol ∈ sols, before sol.assignment value ∧
      ¬ objective.Prefers (value objective.var) (objective.valueIn sol) := by
  by_cases hbetter : ∀ sol ∈ sols, objective.Prefers (value objective.var) (objective.valueIn sol)
  · have hbelow : ∀ sol ∈ sols, sol.store.Below root.store := fun a ha => (hanswers a ha).below
    exact Or.inl ⟨hvalue, hs.improving_of_prefers hroot hbelow hvalue.1 hbetter⟩
  · rw [not_forall₂] at hbetter
    obtain ⟨sol, hsol, hworse⟩ := hbetter
    exact Or.inr ⟨sol, hsol, hall sol hsol, hworse⟩

section Solved

variable {n₁ n₂ n₃ : Model} {events : List Event} {value : Var → Int}

/-- What is wanted when a solution is found is in a solution already, or in this one, or in a region
that comes after it. -/
theorem Awaits.found_or_ahead (hs : Awaits before root ps sols s n) (hroot : root.Sound ps)
    (hconstrain : s.constrain n = .ok (none, n₁))
    (hpropagate : n₁.propagate = .ok (none, events, n₂)) (hchoose : n₂.choose = .ok (none, n₃))
    (hwanted : value ∈ wanted root ps s) :
    (∃ sol ∈ sols ++ [⟨n₃.store⟩], sol.store.Allows value) ∨
      before (⟨n₃.store⟩ : Solution).assignment value := by
  obtain ⟨hn₃, hstore, hsub₂, hsub₁, -⟩ := box_of_visit hs.descends hconstrain hpropagate hchoose
  rw [← hstore] at hsub₂
  obtain ⟨region, hregion, hmem⟩ := hs.covers.parts.covers value hwanted
  rcases List.mem_append.mp hregion with hbox | hregion
  · obtain ⟨sol, hsol, rfl⟩ := List.mem_map.mp hbox
    exact Or.inl ⟨sol, List.mem_append_left _ hsol, hmem⟩
  · rcases List.mem_cons.mp hregion with rfl | hregion
    · have hkept :=
        (allows_of_visit hroot hs.descends hconstrain hpropagate hmem hwanted).2
      rw [← hstore] at hkept
      exact Or.inl ⟨⟨n₃.store⟩, List.mem_append_right _ (List.mem_singleton_self _), hkept⟩
    · right
      have hpending := (List.pairwise_append.mp hs.inOrder.regions).2.1
      have hfirst := Solution.allows_assignment ⟨n₃.store⟩ hn₃.sound.consistent
      exact (List.pairwise_cons.mp hpending).1 region hregion _ (hsub₁ (hsub₂ hfirst)) value hmem

/-- A new solution leaves no assignment unsettled. -/
theorem Awaits.isSettled (hs : Awaits before root ps sols s n) (hroot : root.Sound ps)
    (himproves : Improves objective sols s) (hanswers : ∀ a ∈ sols, root.Answers ps a)
    (hconstrain : s.constrain n = .ok (none, n₁))
    (hpropagate : n₁.propagate = .ok (none, events, n₂)) (hchoose : n₂.choose = .ok (none, n₃))
    (hvalue : value ∈ root.satisfying ps) (hsettled : IsSettled before objective sols value) :
    IsSettled before objective (sols ++ [⟨n₃.store⟩]) value := by
  rcases hsettled with ⟨sol, hsol, hallows⟩ | ⟨sol, hsol, hworse⟩ | hall
  · exact Or.inl ⟨sol, List.mem_append_left _ hsol, hallows⟩
  · exact Or.inr (Or.inl ⟨sol, List.mem_append_left _ hsol, hworse⟩)
  · rcases himproves.improving_or_worse hroot hanswers hvalue hall with
      hwanted | ⟨sol, hsol, hworse⟩
    · rcases hs.found_or_ahead hroot hconstrain hpropagate hchoose hwanted with hfound | hahead
      · exact Or.inl hfound
      · right
        right
        intro sol hsol
        rcases List.mem_append.mp hsol with hsol | hsol
        · exact hall sol hsol
        · rw [List.mem_singleton.mp hsol]
          exact hahead
    · exact Or.inr (Or.inl ⟨sol, List.mem_append_left _ hsol, hworse⟩)

end Solved

theorem Surveys.afterVisit (hs : Surveys before objective root ps sols s) (hroot : root.Sound ps)
    (hawaits : Awaits before root ps sols s n) (hanswers : ∀ a ∈ sols, root.Answers ps a)
    (h : Visit s n t sol) : Surveys before objective root ps (sols ++ sol.toList) t := by
  have himproves := hs.improves.afterVisit hawaits.descends h
  cases h with
  | unimproved =>
      rw [Option.toList_none, List.append_nil]
      exact hs.congr rfl rfl
  | failed =>
      rw [Option.toList_none, List.append_nil]
      exact hs.congr rfl rfl
  | split =>
      rw [Option.toList_none, List.append_nil]
      exact hs.congr rfl rfl
  | @solved n₁ n₂ n₃ events best counters hconstrain hpropagate hchoose hbest =>
      obtain ⟨hn₃, hstore, hsub, -, -⟩ := box_of_visit hawaits.descends hconstrain hpropagate hchoose
      rw [← hstore] at hsub
      have hless : improving { s with best := best, counters := counters } ⊆ s.improving :=
        improving_of_bestAfter hconstrain hn₃.sound.consistent hsub hbest
      obtain ⟨v, hv, rfl⟩ := bestAfter_eq_ok hs.improves.objective_eq hbest
      have hvalueIn : objective.valueIn ⟨n₃.store⟩ = v := Objective.valueIn_of_bestIn_eq_ok hv
      obtain ⟨⟨value, hvalue, heq⟩, -⟩ := Objective.bestIn_eq_ok hn₃.sound.consistent hv
      have himproving := improving_of_constrain hconstrain (hsub hvalue)
      refine ⟨himproves, ?_, ?_, ?_⟩
      · rw [Option.toList_some, List.pairwise_append]
        refine ⟨hs.climbs, List.pairwise_singleton _ _, ?_⟩
        intro a ha b hb
        rw [List.mem_singleton.mp hb, hvalueIn, ← heq]
        exact hs.ahead a ha value himproving
      · intro a ha other hother
        rcases List.mem_append.mp ha with ha | ha
        · exact hs.ahead a ha other (hless hother)
        · rw [List.mem_singleton.mp ha, hvalueIn]
          exact Objective.prefers_of_mem_better
            (hother objective v hs.improves.objective_eq rfl)
      · intro other hother
        exact hawaits.isSettled hroot hs.improves hanswers hconstrain hpropagate hchoose hother
          (hs.settled other hother)

theorem Surveys.afterSteps (hs : Surveys before objective root ps [] s) (hroot : root.Sound ps)
    (hsplitting : Splitting root) (hdirects : Directs before root ps)
    (hcovers : Covers root ps [] [] s) (hinOrder : InOrder before [] [] s) (h : s.Steps sols t) :
    Surveys before objective root ps sols t := by
  induction h with
  | refl => exact hs
  | @step u v found sol hsteps hstep ih =>
      have hu := hcovers.afterSteps hroot hsplitting hsteps
      have hordered := hinOrder.afterSteps hroot hsplitting hdirects hcovers hsteps
      have hanswers := (hcovers.explores.afterSteps (fun _ => hroot) hsteps).2
      rcases hordered.awaits_of_step hroot hu hstep with
        ⟨rfl, hobjective, hbest, -⟩ | ⟨w, n, hobjective, hbest, hawaits, hvisit⟩
      · rw [Option.toList_none, List.append_nil]
        exact ih.congr hobjective hbest
      · exact (ih.congr hobjective hbest).afterVisit hroot hawaits hanswers hvisit

theorem surveys_start (hobjective : s.objective = some objective) (hbest : s.best = none) :
    Surveys before objective root ps [] s where
  improves :=
    { objective_eq := hobjective
      spent := fun _ h => absurd h List.not_mem_nil
      best_eq_none := fun _ => hbest
      best_eq_some := fun _ h => by contradiction }
  climbs := List.Pairwise.nil
  ahead _ h := absurd h List.not_mem_nil
  settled _ _ := Or.inr (Or.inr fun _ h => absurd h List.not_mem_nil)

/-- At the end each satisfying assignment is in a solution, or after one that is at least as good. -/
theorem Surveys.settled_of_ended (hs : Surveys before objective root ps sols s)
    (hroot : root.Sound ps) (hcovers : Covers root ps sols [] s)
    (hanswers : ∀ a ∈ sols, root.Answers ps a) (hended : s.progress = .exhausted)
    {value : Var → Int} (hvalue : value ∈ root.satisfying ps) :
    (∃ sol ∈ sols, sol.store.Allows value) ∨ ∃ sol ∈ sols, before sol.assignment value ∧
      ¬ objective.Prefers (value objective.var) (objective.valueIn sol) := by
  rcases hs.settled value hvalue with hfound | hworse | hall
  · exact Or.inl hfound
  · exact Or.inr hworse
  · rcases hs.improves.improving_or_worse hroot hanswers hvalue hall with hwanted | hworse
    · exact Or.inl (hcovers.exists_solution hended hwanted)
    · exact Or.inr hworse

/-- Propagation leaves no recorded changes, and asking for a choice makes none. -/
theorem changes_of_visit (hn : root.Descends ps n) (h : Visit s n t sol) :
    ∀ a ∈ sol.toList, a.store.changes = #[] := by
  intro a ha
  cases h with
  | unimproved => contradiction
  | failed => contradiction
  | split => contradiction
  | solved hconstrain hpropagate hchoose _ =>
      obtain ⟨hn₁, r, hreaches, hfine, rfl⟩ :=
        propagate_of_constrain (fun _ => hn) hconstrain hpropagate
      have hn₂ := hn₁.afterPropagate hreaches hfine
      rw [List.mem_singleton.mp ha, (hn₂.sound.remembers.chooses hchoose).store]
      exact hreaches.drained hfine

theorem changes_of_steps (hroot : root.Sound ps) (hexplores : Explores root ps s)
    (h : s.Steps sols t) : ∀ a ∈ sols, a.store.changes = #[] := by
  induction h with
  | refl =>
      intro a ha
      contradiction
  | @step u v found sol hsteps hstep ih =>
      have hu := (hexplores.afterSteps (fun _ => hroot) hsteps).1
      intro a ha
      rcases List.mem_append.mp ha with ha | ha
      · exact ih a ha
      · rcases hu.visit_of_step hroot hstep with ⟨rfl, -, -⟩ | ⟨w, n, -, -, hn, hvisit⟩
        · contradiction
        · exact changes_of_visit hn hvisit a ha

end Search

namespace Model.Answers

variable {root : Model} {ps : List Posting} {a b sol : Solution}

theorem view_eq (h : root.Answers ps sol) (hlabelled : root.Labelled) {x : Var}
    (hx : root.store.Has x) : sol.store.view x = .singleton (sol.assignment x) :=
  (Store.value?_eq_some_iff.mp (h.binds hlabelled hx)).2

/-- A solution that binds all variables attains the value of its assignment. -/
theorem valueIn_eq (h : root.Answers ps sol) (hlabelled : root.Labelled) (objective : Objective) :
    objective.valueIn sol = sol.assignment objective.var := by
  cases objective with
  | minimize x => rfl
  | maximize x =>
      change (sol.store.view x).ub = (sol.store.view x).lb
      by_cases hx : root.store.Has x
      · rw [h.view_eq hlabelled hx]
        rfl
      · have hnone : sol.store.domains[x.index]? = none :=
          Array.getElem?_eq_none (not_lt.mp (mt h.below.has_iff.mp hx))
        unfold Store.view Table.view
        rw [hnone]
        rfl

/-- Two solutions that bind all variables are the same, if one has the assignment of the other. -/
theorem eq_of_allows (ha : root.Answers ps a) (hb : root.Answers ps b) (hlabelled : root.Labelled)
    (hdrained : a.store.changes = b.store.changes) (h : a.store.Allows b.assignment) : a = b := by
  have hview : ∀ x, root.store.Has x → a.store.view x = b.store.view x := by
    intro x hx
    have hmem := h x _ (Store.domain_of_has (ha.below.has_iff.mpr hx))
    rw [ha.view_eq hlabelled hx, Interval.mem_iff] at hmem
    have hvalue : b.assignment x = a.assignment x := le_antisymm hmem.2 hmem.1
    rw [ha.view_eq hlabelled hx, hb.view_eq hlabelled hx, hvalue]
  have hsize : a.store.domains.size = b.store.domains.size := ha.below.size.trans hb.below.size.symm
  have hdomains : a.store.domains = b.store.domains := by
    apply Table.eq_of_view_eq hsize
    apply le_antisymm
    · exact Table.view_le_of_size_eq hsize fun x hx => (hview x (hb.below.has_iff.mp hx)).le
    · exact Table.view_le_of_size_eq hsize.symm fun x hx => (hview x (ha.below.has_iff.mp hx)).ge
  have hfailure : a.store.failure = b.store.failure :=
    ha.consistent.failure.trans hb.consistent.failure.symm
  rcases a with ⟨⟨domains, changes, failure⟩⟩
  rcases b with ⟨⟨domains', changes', failure'⟩⟩
  rw [Solution.mk.injEq, Store.mk.injEq]
  exact ⟨hdomains, hdrained, hfailure⟩

end Model.Answers

namespace Search

variable {root : Model} {ps : List Posting} {xs : List Var} {preference : Preference}

/-- What is known of a search that started at the root, and of the solutions that it has found. -/
structure Sweeps (before : (Var → Int) → (Var → Int) → Prop) (root : Model) (ps : List Posting)
    (sols : List Solution) (s : Search Constraint Strategy) : Prop where
  covers : Covers root ps sols [] s
  inOrder : InOrder before sols [] s
  answers : ∀ sol ∈ sols, root.Answers ps sol
  drained : ∀ sol ∈ sols, sol.store.changes = #[]

section Sweeps

variable {before : (Var → Int) → (Var → Int) → Prop} {s t : Search Constraint Strategy}
  {sols : List Solution}

theorem sweeps_of_steps (hroot : root.Sound ps) (hsplitting : Splitting root)
    (hdirects : Directs before root ps) (hsome : s.root = some root) (hstack : s.stack = [])
    (hrunning : s.progress = .running) (h : s.Steps sols t) : Sweeps before root ps sols t := by
  have hcovers : Covers root ps [] [] s := covers_start hsome hstack hrunning
  have hinOrder : InOrder before [] [] s := inOrder_start hsome hstack
  constructor
  · exact hcovers.afterSteps hroot hsplitting h
  · exact hinOrder.afterSteps hroot hsplitting hdirects hcovers h
  · exact (hcovers.explores.afterSteps (fun _ => hroot) h).2
  · exact changes_of_steps hroot hcovers.explores h

/-- The solutions are in the order of their assignments. -/
theorem Sweeps.pairwise (hs : Sweeps before root ps sols s) :
    sols.Pairwise fun a b => before a.assignment b.assignment := by
  apply hs.inOrder.pairwise_boxes.imp_of_mem
  intro a b ha hb hprecedes
  exact hprecedes _ (a.allows_assignment (hs.answers a ha).consistent) _
    (b.allows_assignment (hs.answers b hb).consistent)

/-- Solutions of two searches are the same, if one has the assignment of the other. -/
theorem Sweeps.eq_of_allows {sols' : List Solution} (hs : Sweeps before root ps sols s)
    (ht : Sweeps before root ps sols' t) (hlabelled : root.Labelled) {a b : Solution}
    (ha : a ∈ sols) (hb : b ∈ sols') (h : a.store.Allows b.assignment) : a = b :=
  (hs.answers a ha).eq_of_allows (ht.answers b hb) hlabelled
    ((hs.drained a ha).trans (ht.drained b hb).symm) h

/-- A search without an objective that has come to its end has found every satisfying assignment. -/
theorem Sweeps.exists_solution (hs : Sweeps before root ps sols s) (hnone : s.objective = none)
    (hended : s.progress = .exhausted) {value : Var → Int} (hvalue : value ∈ root.satisfying ps) :
    ∃ sol ∈ sols, sol.store.Allows value := by
  apply hs.covers.exists_solution hended
  refine ⟨hvalue, ?_⟩
  intro objective best hsome
  rw [hnone] at hsome
  contradiction

end Sweeps

theorem splitting_of_policies
    (hpolicies : root.policies = [.labelling (.ofVars xs .first preference)])
    (hfits : xs.length ≤ Choice.positions) : Splitting root := by
  intro b hb
  have hpolicy : b.rewound ∈ root.policies := List.mem_map_of_mem (Array.mem_toList_iff.mpr hb)
  rw [hpolicies, List.mem_singleton] at hpolicy
  rw [← Strategy.isSplitting_rewound, ← Strategy.addressable_rewound, hpolicy]
  exact ⟨trivial, hfits⟩

theorem labelled_of_policies
    (hpolicies : root.policies = [.labelling (.ofVars xs .first preference)])
    (hall : ∀ x, root.store.Has x → x ∈ xs) : root.Labelled := by
  intro x hx
  have hpolicy : .labelling (.ofVars xs .first preference) ∈ root.policies := by
    rw [hpolicies]
    exact List.mem_singleton_self _
  obtain ⟨b, hb, heq⟩ := List.mem_map.mp hpolicy
  refine ⟨b, Array.mem_toList_iff.mp hb, ?_⟩
  rw [← Strategy.labels_rewound, heq]
  exact hall x hx

/-- Branch and bound returns the records among the solutions of an enumeration, if a single labelling
takes all variables in the order of a list: the first solution, and each later one whose objective
value is better than those of all solutions before it. -/
theorem optimize_eq_records {asked : Table Interval} {objective : Objective}
    {budget budget' : Budget} {verbosity verbosity' : Level} {sols best : List Solution}
    {t u : Search Constraint Strategy} (hroot : Model.Reachable asked ps root)
    (hfine : root.store.failure = none) (hdistinct : ∀ p ∈ ps, p.Distinct)
    (hpolicies : root.policies = [.labelling (.ofVars xs .first preference)])
    (hfits : xs.length ≤ Choice.positions) (hall : ∀ x, root.store.Has x → x ∈ xs)
    (hsols : (enumerate root budget verbosity).Returns sols t) (hended : t.progress = .exhausted)
    (hbest : (optimize root objective budget' verbosity').Returns best u)
    (hended' : u.progress = .exhausted) :
    best = objective.records sols := by
  have hsound := hroot.sound hfine
  have hsplitting := splitting_of_policies hpolicies hfits
  have hlabelled := labelled_of_policies hpolicies hall
  have hdirects : Directs (preference.Before xs) root ps := directs_labelling hpolicies hfits
  have hfound := sweeps_of_steps hsound hsplitting hdirects rfl rfl rfl hsols.steps
  have hkept := sweeps_of_steps hsound hsplitting hdirects rfl rfl rfl hbest.steps
  have hsurveys : Surveys (preference.Before xs) objective root ps best u :=
    (surveys_start rfl rfl).afterSteps hsound hsplitting hdirects (covers_start rfl rfl rfl)
      (inOrder_start rfl rfl) hbest.steps
  have hsub : ∀ sol ∈ best, sol ∈ sols := by
    intro sol hsol
    have hmem := (hkept.answers sol hsol).assignment_mem hsound hdistinct hlabelled
    obtain ⟨other, hother, hallows⟩ := hfound.exists_solution hsols.steps.objective hended hmem
    rw [← hfound.eq_of_allows hkept hlabelled hother hsol hallows]
    exact hother
  have hsettled : ∀ sol ∈ sols, sol ∈ best ∨ ∃ b ∈ best,
      preference.Before xs b.assignment sol.assignment ∧
        ¬ objective.Prefers (objective.valueIn sol) (objective.valueIn b) := by
    intro sol hsol
    have hanswer := hfound.answers sol hsol
    have hmem := hanswer.assignment_mem hsound hdistinct hlabelled
    rcases hsurveys.settled_of_ended hsound hkept.covers hkept.answers hended' hmem with
      ⟨other, hother, hallows⟩ | ⟨b, hb, hbefore, hworse⟩
    · left
      rw [← hkept.eq_of_allows hfound hlabelled hother hsol hallows]
      exact hother
    · rw [hanswer.valueIn_eq hlabelled]
      exact Or.inr ⟨b, hb, hbefore, hworse⟩
  exact Objective.eq_records (fun _ _ h => h.asymm) (fun _ _ _ h h' => h.trans h') hfound.pairwise
    hkept.pairwise hsurveys.climbs hsub hsettled

/-- The ends of the chains, in lexicographic order, are 1, 2 and 2.  The search for the greatest end
returns the first two chains. -/
theorem optimize_eq_records_chain :
    ∃ sols best t u, (enumerate Model.chain .unlimited .info).Returns sols t ∧
      (optimize Model.chain (.maximize ⟨1⟩) .unlimited .info).Returns best u ∧
      sols.map (Objective.valueIn · (.maximize ⟨1⟩)) = [1, 2, 2] ∧ best.length = 2 ∧
      best = (Objective.maximize ⟨1⟩).records sols := by
  obtain ⟨found, t, hcollect, hended, hends⟩ :
      ∃ found t, (enumerate Model.chain .unlimited .info).collect 10 10 = .ok (found, t) ∧
        t.progress = .exhausted ∧
        (found.map Prod.fst).map (Objective.valueIn · (.maximize ⟨1⟩)) = [1, 2, 2] :=
    ⟨_, _, rfl, rfl, rfl⟩
  obtain ⟨kept, u, hcollect', hended', hlength⟩ :
      ∃ kept u, (optimize Model.chain (.maximize ⟨1⟩) .unlimited .info).collect 10 10 =
        .ok (kept, u) ∧ u.progress = .exhausted ∧ (kept.map Prod.fst).length = 2 :=
    ⟨_, _, rfl, rfl, rfl⟩
  have hsols := returns_of_collect .start hcollect
  have hbest := returns_of_collect .start hcollect'
  rw [List.nil_append] at hsols hbest
  have hall : ∀ x, Model.chain.store.Has x → x ∈ [(⟨0⟩ : Var), ⟨1⟩] := by
    rintro ⟨k⟩ hk
    have hlt : k < 2 := hk
    interval_cases k
    · exact List.mem_pair.mpr (Or.inl rfl)
    · exact List.mem_pair.mpr (Or.inr rfl)
  have hpolicies : Model.chain.policies = [.labelling (.ofVars [⟨0⟩, ⟨1⟩] .first .least)] := rfl
  exact ⟨_, _, t, u, hsols, hbest, hends, hlength,
    optimize_eq_records Model.reachable_chain rfl (by decide) hpolicies (by decide) hall hsols hended
      hbest hended'⟩

end Search

end FiniteDomain
