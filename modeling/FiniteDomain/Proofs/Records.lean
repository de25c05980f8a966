import FiniteDomain.Proofs.SearchOptimality

/-!
# Records

The records of a list of solutions are the first one, and each that is better than all before it.
Where the solutions are in some order, those before a solution in the list are those that come before
it in the order.  This makes it possible to recognise the records in a list that was made in another
way: it is in order and improves, and each solution that it leaves out comes after one in it that is
at least as good.
-/

namespace FiniteDomain

namespace Objective

/-- The value of a solution, as the search reads it off. -/
def valueIn (sol : Solution) : Objective → Int
  | minimize x => (sol.store.view x).lb
  | maximize x => (sol.store.view x).ub

instance (v w : Int) : DecidablePred (Prefers v w)
  | minimize _ => inferInstanceAs (Decidable (v < w))
  | maximize _ => inferInstanceAs (Decidable (w < v))

/-- The solutions that are better than the given values and than all solutions before them. -/
def recordsAfter (objective : Objective) : List Int → List Solution → List Solution
  | _, [] => []
  | earlier, sol :: rest =>
    let later := objective.recordsAfter (objective.valueIn sol :: earlier) rest
    if ∀ v ∈ earlier, objective.Prefers (objective.valueIn sol) v then sol :: later else later

/-- The first solution, and each one that is better than all solutions before it. -/
def records (objective : Objective) (sols : List Solution) : List Solution :=
  objective.recordsAfter [] sols

variable {objective : Objective} {u v w : Int} {sol : Solution} {sols best : List Solution}

/-- What is better than a value is better than one that is not better than it. -/
theorem Prefers.of_not_prefers (huw : objective.Prefers u w) (hvw : ¬ objective.Prefers v w) :
    objective.Prefers u v := by
  cases objective with
  | minimize x => exact lt_of_lt_of_le huw (not_lt.mp hvw)
  | maximize x => exact lt_of_le_of_lt (not_lt.mp hvw) huw

theorem prefers_of_mem_better (h : v ∈ objective.better w) : objective.Prefers v w := by
  cases objective with
  | minimize x =>
      simp only [better, Interval.mem_iff] at h
      change v < w
      omega
  | maximize x =>
      simp only [better, Interval.mem_iff] at h
      change w < v
      omega

theorem valueIn_of_bestIn_eq_ok (h : objective.bestIn sol.store = .ok v) :
    objective.valueIn sol = v := by
  have hhas := has_of_bestIn_eq_ok h
  cases objective with
  | minimize x => exact Except.ok.inj ((Store.lower_of_has hhas).symm.trans h)
  | maximize x => exact Except.ok.inj ((Store.upper_of_has hhas).symm.trans h)

theorem recordsAfter_sublist (earlier : List Int) :
    (objective.recordsAfter earlier sols).Sublist sols := by
  induction sols generalizing earlier with
  | nil => exact List.Sublist.refl []
  | cons sol rest ih =>
      unfold recordsAfter
      split
      · exact (ih _).cons_cons sol
      · exact (ih _).cons sol

theorem mem_recordsAfter_cons {first : Solution} {rest : List Solution} {earlier : List Int} :
    sol ∈ objective.recordsAfter earlier (first :: rest) ↔
      (sol = first ∧ ∀ v ∈ earlier, objective.Prefers (objective.valueIn first) v) ∨
        sol ∈ objective.recordsAfter (objective.valueIn first :: earlier) rest := by
  have hstep : objective.recordsAfter earlier (first :: rest) =
      if ∀ v ∈ earlier, objective.Prefers (objective.valueIn first) v then
        first :: objective.recordsAfter (objective.valueIn first :: earlier) rest
      else
        objective.recordsAfter (objective.valueIn first :: earlier) rest := rfl
  rw [hstep]
  split
  · rename_i hbetter
    rw [List.mem_cons, and_iff_left hbetter]
  · rename_i hnot
    rw [iff_false_intro hnot, and_false, false_or]

variable {before : Solution → Solution → Prop}

/-- In a list that is in order, the solutions before a solution are those that come before it in that
order. -/
theorem mem_recordsAfter (hasymm : ∀ a b, before a b → ¬ before b a)
    (hsorted : sols.Pairwise before) (earlier : List Int) :
    sol ∈ objective.recordsAfter earlier sols ↔ sol ∈ sols ∧
      (∀ v ∈ earlier, objective.Prefers (objective.valueIn sol) v) ∧
        ∀ other ∈ sols, before other sol →
          objective.Prefers (objective.valueIn sol) (objective.valueIn other) := by
  induction sols generalizing earlier with
  | nil =>
      constructor
      · intro hmem
        contradiction
      · intro hmem
        exact absurd hmem.1 List.not_mem_nil
  | cons first rest ih =>
      rw [List.pairwise_cons] at hsorted
      obtain ⟨hfirst, hrest⟩ := hsorted
      have hself : ¬ before first first := fun h => hasymm first first h h
      rw [mem_recordsAfter_cons, ih hrest, List.forall_mem_cons, List.forall_mem_cons, List.mem_cons]
      constructor
      · intro hmem
        rcases hmem with ⟨rfl, hbetter⟩ | ⟨hmem, ⟨hbetter, hearlier⟩, hothers⟩
        · refine ⟨Or.inl rfl, hbetter, fun hbefore => absurd hbefore hself, ?_⟩
          intro other hother hbefore
          exact absurd hbefore (hasymm _ _ (hfirst other hother))
        · exact ⟨Or.inr hmem, hearlier, fun _ => hbetter, hothers⟩
      · intro hmem
        obtain ⟨hhere | hmem, hearlier, hbetter, hothers⟩ := hmem
        · left
          rw [hhere] at hearlier
          exact ⟨hhere, hearlier⟩
        · exact Or.inr ⟨hmem, ⟨hbetter (hfirst sol hmem), hearlier⟩, hothers⟩

/-- Solutions that are in order and improve are the records of a list, if they are taken from it, and
each solution that is left out comes after one that is at least as good. -/
theorem eq_records (hasymm : ∀ a b, before a b → ¬ before b a)
    (htrans : ∀ a b c, before a b → before b c → before a c) (hsols : sols.Pairwise before)
    (hbest : best.Pairwise before)
    (hclimbs : best.Pairwise fun a b =>
      objective.Prefers (objective.valueIn b) (objective.valueIn a))
    (hsub : ∀ sol ∈ best, sol ∈ sols)
    (hcovers : ∀ sol ∈ sols, sol ∈ best ∨ ∃ b ∈ best, before b sol ∧
      ¬ objective.Prefers (objective.valueIn sol) (objective.valueIn b)) :
    best = objective.records sols := by
  have hirrefl : ∀ a, ¬ before a a := fun a h => hasymm a a h h
  have hrises : ∀ a ∈ best, ∀ b ∈ best, before a b →
      objective.Prefers (objective.valueIn b) (objective.valueIn a) := by
    have hordered : best.Pairwise fun a b => before a b →
        objective.Prefers (objective.valueIn b) (objective.valueIn a) := by
      apply hclimbs.imp
      intro a b hprefers _
      exact hprefers
    have hreversed : best.Pairwise fun a b => before b a →
        objective.Prefers (objective.valueIn a) (objective.valueIn b) := by
      apply hbest.imp
      intro a b hbefore hback
      exact absurd hback (hasymm a b hbefore)
    intro a ha b hb
    exact hordered.forall_of_forall_of_flip (fun c _ h => absurd h (hirrefl c)) hreversed ha hb
  have hrecords : (objective.records sols).Pairwise before :=
    hsols.sublist (recordsAfter_sublist [])
  have hmem : ∀ sol, sol ∈ best ↔ sol ∈ objective.records sols := by
    intro sol
    unfold records
    rw [mem_recordsAfter hasymm hsols]
    constructor
    · intro hsol
      refine ⟨hsub sol hsol, fun v hv => absurd hv List.not_mem_nil, ?_⟩
      intro other hother hbefore
      rcases hcovers other hother with hother | ⟨b, hb, hbother, hworse⟩
      · exact hrises other hother sol hsol hbefore
      · exact (hrises b hb sol hsol (htrans b other sol hbother hbefore)).of_not_prefers hworse
    · intro hsol
      obtain ⟨hsol, -, hbetter⟩ := hsol
      rcases hcovers sol hsol with hsol | ⟨b, hb, hbefore, hworse⟩
      · exact hsol
      · exact absurd (hbetter b (hsub b hb) hbefore) hworse
  have : Std.Irrefl before := ⟨hirrefl⟩
  have : Std.Antisymm before := ⟨fun a b hab hba => absurd hba (hasymm a b hab)⟩
  exact hbest.eq_of_mem_iff hrecords hmem

end Objective

end FiniteDomain
