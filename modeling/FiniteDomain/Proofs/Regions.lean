import FiniteDomain.Proofs.SearchSoundness

/-!
# Regions of a search

The assignments that a search has still to look at lie in regions: the box of the root before it is
visited, and for each open node the alternatives that were not taken.  The boxes of the solutions
found so far and these regions are separate, and together they hold all assignments that are wanted.
This file says how regions may be replaced, and what a visit and a commit do to the region of a node.
-/

namespace FiniteDomain

/-- The assignments in the domains of a store. -/
def Store.box (s : Store) : Set (Var → Int) :=
  { value | s.Allows value }

/-- No assignment lies in both regions. -/
def Separate (a b : Set (Var → Int)) : Prop :=
  ∀ value ∈ a, value ∉ b

theorem Separate.mono {a a' b b' : Set (Var → Int)} (h : Separate a b) (ha : a' ⊆ a)
    (hb : b' ⊆ b) : Separate a' b' := by
  intro value hvalue hother
  exact h value (ha hvalue) (hb hother)

/-- Where regions are related pairwise, and parts of them are related as well, a region may be replaced
by pieces of it. -/
theorem pairwise_replace {r : Set (Var → Int) → Set (Var → Int) → Prop}
    {closed pieces rest : List (Set (Var → Int))} {region : Set (Var → Int)}
    (hmono : ∀ {a a' b b'}, r a b → a' ⊆ a → b' ⊆ b → r a' b')
    (h : (closed ++ region :: rest).Pairwise r) (hpieces : pieces.Pairwise r)
    (hsub : ∀ piece ∈ pieces, piece ⊆ region) : (closed ++ (pieces ++ rest)).Pairwise r := by
  rw [List.pairwise_append, List.pairwise_cons] at h
  rcases h with ⟨hclosed, ⟨hregion, hrest⟩, hacross⟩
  rw [List.pairwise_append, List.pairwise_append]
  refine ⟨hclosed, ⟨hpieces, hrest, ?_⟩, ?_⟩
  · intro piece hpiece other hother
    exact hmono (hregion other hother) (hsub piece hpiece) subset_rfl
  · intro done hdone other hother
    rcases List.mem_append.mp hother with hpiece | hother
    · exact hmono (hacross done hdone region List.mem_cons_self) subset_rfl (hsub other hpiece)
    · exact hacross done hdone other (List.mem_cons_of_mem _ hother)

/-- Separate regions, of which those that are done come first, hold everything that is wanted. -/
structure Parts (wanted : Set (Var → Int)) (closed rest : List (Set (Var → Int))) : Prop where
  separate : (closed ++ rest).Pairwise Separate
  covers : ∀ value ∈ wanted, ∃ region ∈ closed ++ rest, value ∈ region

namespace Parts

variable {wanted wanted' region region' : Set (Var → Int)}
  {closed pieces rest : List (Set (Var → Int))}

theorem mono (h : Parts wanted closed rest) (hsub : wanted' ⊆ wanted) :
    Parts wanted' closed rest where
  separate := h.separate
  covers value hvalue := h.covers value (hsub hvalue)

/-- A region may be replaced by pieces of it that hold what is wanted of it. -/
theorem replace (h : Parts wanted closed (region :: rest)) (hpieces : pieces.Pairwise Separate)
    (hsub : ∀ piece ∈ pieces, piece ⊆ region)
    (hkeeps : ∀ value ∈ wanted, value ∈ region → ∃ piece ∈ pieces, value ∈ piece) :
    Parts wanted closed (pieces ++ rest) where
  separate := pairwise_replace Separate.mono h.separate hpieces hsub
  covers value hvalue := by
    obtain ⟨other, hother, hmem⟩ := h.covers value hvalue
    rcases List.mem_append.mp hother with hdone | hother
    · exact ⟨other, List.mem_append_left _ hdone, hmem⟩
    · rcases List.mem_cons.mp hother with rfl | hother
      · obtain ⟨piece, hpiece, hin⟩ := hkeeps value hvalue hmem
        exact ⟨piece, List.mem_append_right _ (List.mem_append_left _ hpiece), hin⟩
      · exact ⟨other, List.mem_append_right _ (List.mem_append_right _ hother), hmem⟩

theorem shrink (h : Parts wanted closed (region :: rest)) (hsub : region' ⊆ region)
    (hkeeps : region ∩ wanted ⊆ region') : Parts wanted closed (region' :: rest) := by
  apply h.replace (List.pairwise_singleton _ region')
  · intro piece hpiece
    rw [List.mem_singleton.mp hpiece]
    exact hsub
  · intro value hvalue hmem
    exact ⟨region', List.mem_singleton_self region', hkeeps ⟨hmem, hvalue⟩⟩

theorem drop (h : Parts wanted closed (region :: rest)) (hnone : region ∩ wanted ⊆ ∅) :
    Parts wanted closed rest := by
  apply h.replace List.Pairwise.nil
  · intro piece hpiece
    exact absurd hpiece List.not_mem_nil
  · intro value hvalue hmem
    exact absurd (hnone ⟨hmem, hvalue⟩) (Set.notMem_empty value)

theorem split {first second : Set (Var → Int)} (h : Parts wanted closed (region :: rest))
    (hunion : region = first ∪ second) (hseparate : Separate first second) :
    Parts wanted closed (first :: second :: rest) := by
  apply h.replace (List.pairwise_pair.mpr hseparate)
  · intro piece hpiece
    rw [hunion]
    rcases List.mem_pair.mp hpiece with rfl | rfl
    · exact Set.subset_union_left
    · exact Set.subset_union_right
  · intro value _ hmem
    rw [hunion] at hmem
    rcases hmem with hfirst | hsecond
    · exact ⟨first, List.mem_pair.mpr (Or.inl rfl), hfirst⟩
    · exact ⟨second, List.mem_pair.mpr (Or.inr rfl), hsecond⟩

theorem close (h : Parts wanted closed (region :: rest)) :
    Parts wanted (closed ++ [region]) rest := by
  have hsame : closed ++ [region] ++ rest = closed ++ region :: rest := by simp
  constructor
  · rw [hsame]
    exact h.separate
  · rw [hsame]
    exact h.covers

end Parts

section Box

variable {s t : Store} {x : Var} {d : Interval} {value : Var → Int}

theorem Store.Below.box_subset (h : t.Below s) : t.box ⊆ s.box := by
  intro value hvalue
  exact Store.allows_iff.mpr (h.encloses (Store.allows_iff.mp hvalue))

theorem Store.allows_of_narrow {reply : Except Wipeout Bool}
    (h : s.narrow x d.lb d.ub = .ok (reply, t)) (hs : s.failure = none) (hvalue : s.Allows value)
    (hd : value x ∈ d) : t.failure = none ∧ t.Allows value := by
  have hkeeps := Store.keeps_narrow h hs (View.consistent_ofValues value)
    (Store.allows_iff.mp hvalue) hd
  exact ⟨hkeeps.1, Store.allows_iff.mpr hkeeps.2⟩

theorem Store.mem_of_narrow {reply : Except Wipeout Bool}
    (h : s.narrow x d.lb d.ub = .ok (reply, t)) (ht : t.failure = none) (hvalue : t.Allows value) :
    value x ∈ d := by
  rcases Store.narrow_cases h with ⟨w, -, -, hfailed⟩ | ⟨-, hx, -, -, rfl⟩
  · rw [hfailed] at ht
    contradiction
  · have hcut := Store.allows_iff.mp hvalue x (Store.has_cut.mpr hx)
    rw [Store.view_cut hx, View.cut_self] at hcut
    simp only [View.ofValues, Interval.singleton, Interval.le_iff, Interval.lb_inter,
      Interval.ub_inter] at hcut
    rw [Interval.mem_iff]
    omega

theorem Store.reply_of_narrow {reply : Except Wipeout Bool} {lb ub : Int}
    (h : s.narrow x lb ub = .ok (reply, t)) : t.failure = none ↔ ∃ changed, reply = .ok changed := by
  rcases Store.narrow_cases h with ⟨w, rfl, -, hfailed⟩ | ⟨hs, -, -, rfl, rfl⟩
  · simp [hfailed]
  · rw [Store.failure_cut]
    exact ⟨fun _ => ⟨_, rfl⟩, fun _ => hs⟩

end Box

namespace Model

variable {root n : Model} {ps : List Posting} {value : Var → Int}

/-- The assignments in the domains of a model that satisfy all constraints. -/
def satisfying (m : Model) (ps : List Posting) : Set (Var → Int) :=
  { value | m.store.Allows value ∧ ∀ p ∈ ps, p.Holds value }

/-- A satisfying assignment is a closed view, so it survives propagation. -/
theorem Sound.closed_of_satisfying (h : root.Sound ps) (hvalue : value ∈ root.satisfying ps) :
    ∀ p ∈ ps, Filtering.Closed p.constraint (View.ofValues value) := by
  rcases hvalue with ⟨hallows, hholds⟩
  intro p hp
  apply Constraint.closed_ofValues_iff.mpr
  rw [← Posting.holds_iff]
  · exact hholds p hp
  · intro x hx
    have hhas : root.store.Has x := h.coherent.has _ (h.mem_propagators hp) x hx
    have hmem := hallows x _ (Store.domain_of_has hhas)
    exact ⟨(h.consistent.least x).trans hmem.1, hmem.2.trans (h.consistent.greatest x)⟩

theorem Sound.allows_of_reaches (h : root.Sound ps) (hn : n.Sound ps)
    {r : Propagation Constraint} (hreaches : n.engine.Reaches n.store r)
    (hvalue : value ∈ root.satisfying ps) (hallows : n.store.Allows value) :
    r.failure = none ∧ r.store.Allows value := by
  have hkeeps := hreaches.keeps (View.ofValues value) (View.consistent_ofValues value) (by
    rw [hn.propagators]
    intro q hq
    rcases List.mem_map.mp hq with ⟨p, hp, rfl⟩
    exact h.closed_of_satisfying hvalue p hp) (Store.allows_iff.mp hallows)
  exact ⟨hkeeps.1, Store.allows_iff.mpr hkeeps.2⟩

end Model

namespace Objective

variable {objective : Objective}

/-- The best value of a store is attained in its box, where nothing is better. -/
theorem bestIn_eq_ok {s : Store} {best : Int} (hs : s.Consistent)
    (h : objective.bestIn s = .ok best) :
    (∃ value, s.Allows value ∧ value objective.var = best) ∧
      ∀ value, s.Allows value → value objective.var ∉ objective.better best := by
  have hle : ∀ x, (s.view x).lb ≤ (s.view x).ub := hs.view
  cases objective with
  | minimize x =>
      rcases Fault.bind_eq_ok_iff.mp h with ⟨d, hd, hlower⟩
      simp only [pure, Except.pure, Except.ok.injEq] at hlower
      refine ⟨⟨fun y => (s.view y).lb, ?_, ?_⟩, ?_⟩
      · intro y e he
        rcases Store.domain_eq_ok_iff.mp he with ⟨-, rfl⟩
        exact ⟨le_rfl, hle y⟩
      · rcases Store.domain_eq_ok_iff.mp hd with ⟨-, rfl⟩
        exact hlower
      · intro value hvalue hbetter
        have hmem := (hvalue x d hd).1
        have hless := hbetter.2
        simp only [better, var] at hless
        omega
  | maximize x =>
      rcases Fault.bind_eq_ok_iff.mp h with ⟨d, hd, hupper⟩
      simp only [pure, Except.pure, Except.ok.injEq] at hupper
      refine ⟨⟨fun y => (s.view y).ub, ?_, ?_⟩, ?_⟩
      · intro y e he
        rcases Store.domain_eq_ok_iff.mp he with ⟨-, rfl⟩
        exact ⟨hle y, le_rfl⟩
      · rcases Store.domain_eq_ok_iff.mp hd with ⟨-, rfl⟩
        exact hupper
      · intro value hvalue hbetter
        have hmem := (hvalue x d hd).2
        have hless := hbetter.1
        simp only [better, var] at hless
        omega

theorem better_trans {v best best' : Int} (hbest : best' ∈ objective.better best)
    (hv : v ∈ objective.better best') : v ∈ objective.better best := by
  cases objective with
  | minimize x =>
      simp only [better, Interval.mem_iff] at *
      omega
  | maximize x =>
      simp only [better, Interval.mem_iff] at *
      omega

end Objective

namespace Search

variable {root n n₁ n₂ n₃ : Model} {ps : List Posting} {s t : Search Constraint Strategy}
  {sol : Option Solution} {value : Var → Int}

/-- The assignments that are strictly better than the best solution so far. -/
def improving (s : Search Constraint Strategy) : Set (Var → Int) :=
  { value | ∀ objective best, s.objective = some objective → s.best = some best →
    value objective.var ∈ objective.better best }

/-- A node that is constrained keeps the improving assignments, and no others. -/
theorem allows_of_constrain {failure : Option Wipeout} (h : s.constrain n = .ok (failure, n₁))
    (hn : n.store.failure = none) (hvalue : n.store.Allows value) (hbetter : value ∈ s.improving) :
    failure = none ∧ n₁.store.Allows value := by
  rcases constrain_eq_ok h with ⟨rfl, rfl, -⟩ |
    ⟨objective, best, reply, hobjective, hbest, hnarrow, -, hreply⟩
  · exact ⟨rfl, hvalue⟩
  · obtain ⟨hfine, hallows⟩ := Store.allows_of_narrow hnarrow hn hvalue
      (hbetter objective best hobjective hbest)
    exact ⟨hreply.mpr ((Store.reply_of_narrow hnarrow).mp hfine), hallows⟩

theorem improving_of_constrain (h : s.constrain n = .ok (none, n₁)) (hvalue : n₁.store.Allows value) :
    value ∈ s.improving := by
  intro objective best hobjective hbest
  rcases constrain_eq_ok h with ⟨-, -, hnone | hnone⟩ |
    ⟨objective', best', reply, hobjective', hbest', hnarrow, -, hreply⟩
  · rw [hnone] at hobjective
    contradiction
  · rw [hnone] at hbest
    contradiction
  · rw [hobjective, Option.some.injEq] at hobjective'
    rw [hbest, Option.some.injEq] at hbest'
    subst hobjective' hbest'
    have hfine := (Store.reply_of_narrow hnarrow).mpr (hreply.mp rfl)
    exact Store.mem_of_narrow hnarrow hfine hvalue

/-- A solution asks for more than the solution before it. -/
theorem improving_of_bestAfter {best : Option Int} {counters : Counters}
    (hconstrain : s.constrain n = .ok (none, n₁)) (hn₃ : n₃.store.Consistent)
    (hsub : n₃.store.box ⊆ n₁.store.box) (hbest : s.bestAfter n₃.store = .ok best) :
    improving { s with best := best, counters := counters } ⊆ s.improving := by
  intro value hvalue objective before hobjective hbefore
  obtain ⟨now, hnow, rfl⟩ := bestAfter_eq_ok hobjective hbest
  obtain ⟨⟨attained, hallows, hattained⟩, -⟩ := Objective.bestIn_eq_ok hn₃ hnow
  have hbetter := improving_of_constrain hconstrain (hsub hallows) objective before hobjective hbefore
  rw [hattained] at hbetter
  exact Objective.better_trans hbetter (hvalue objective now hobjective rfl)

end Search

end FiniteDomain
