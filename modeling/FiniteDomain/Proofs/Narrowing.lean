import FiniteDomain.Proofs.View

/-!
# Narrowing

A propagator, a brancher or an objective changes a store through two operations only: it narrows a
domain, or it wipes one out.  This file says what any number of them can do.  Each step either
records a failure or cuts one domain to a part that is not empty, so views descend, changed variables
are recorded, a failure is there to stay, and the weight of the store goes down with every change.
-/

namespace FiniteDomain

namespace Store

/-- The stores that are reached from a store by narrowing domains and wiping them out. -/
inductive Narrowing (s : Store) : Store → Prop
  | refl : Narrowing s s
  | narrow {t u : Store} {x : Var} {lb ub : Int} {reply : Except Wipeout Bool}
      (hst : Narrowing s t) (h : t.narrow x lb ub = .ok (reply, u)) : Narrowing s u
  | wipeOut {t u : Store} {x : Var} {w : Wipeout}
      (hst : Narrowing s t) (h : t.wipeOut x = .ok (w, u)) : Narrowing s u

theorem fail_of_failure {s : Store} {w : Wipeout} (h : s.failure = some w) (v : Wipeout) :
    s.fail v = s := by
  simp [fail, h]

theorem fail_of_failure_eq_none {s : Store} (h : s.failure = none) (w : Wipeout) :
    s.fail w = { s with failure := some w } := by
  simp [fail, h]

@[simp]
theorem changes_fail (s : Store) (w : Wipeout) : (s.fail w).changes = s.changes := by
  unfold fail
  split <;> rfl

@[simp]
theorem view_fail (s : Store) (w : Wipeout) : (s.fail w).view = s.view := by
  unfold Store.view
  rw [domains_fail]

theorem failure_fail_ne_none (s : Store) (w : Wipeout) : (s.fail w).failure ≠ none := by
  have hsome := fail_failure_isSome s w
  intro hnone
  rw [hnone] at hsome
  simp at hsome

theorem wipeOut_eq_ok {s t : Store} {x : Var} {w : Wipeout} (h : s.wipeOut x = .ok (w, t)) :
    t = s.fail w := by
  unfold Store.wipeOut at h
  rw [Fault.bind_eq_ok_iff] at h
  rcases h with ⟨d, -, h⟩
  simp only [pure, Except.pure, Except.ok.injEq, Prod.mk.injEq] at h
  rcases h with ⟨rfl, rfl⟩
  rfl

theorem wipeOut_of_has {s : Store} {x : Var} (hx : s.Has x) :
    s.wipeOut x = .ok (⟨x, min ((s.view x).ub + 1) Word.greatest, (s.view x).ub⟩,
      s.fail ⟨x, min ((s.view x).ub + 1) Word.greatest, (s.view x).ub⟩) := by
  unfold wipeOut
  rw [domain_of_has hx]
  rfl

/-- A narrowing fails the store, or it is refused by a store that has failed, or it cuts a domain to
a part that is not empty. -/
theorem narrow_cases {s t : Store} {x : Var} {lb ub : Int} {reply : Except Wipeout Bool}
    (h : s.narrow x lb ub = .ok (reply, t)) :
    (∃ w, reply = .error w ∧ t = s.fail w ∧ t.failure = some w) ∨
      (s.failure = none ∧ s.Has x ∧
        ((s.view x).inter ⟨lb, ub⟩).lb ≤ ((s.view x).inter ⟨lb, ub⟩).ub ∧
        reply = .ok (decide ((s.view x).inter ⟨lb, ub⟩ ≠ s.view x)) ∧
        t = s.cut x ⟨lb, ub⟩) := by
  cases hs : s.failure with
  | some w =>
      rw [narrow_of_failed hs] at h
      simp only [Except.ok.injEq, Prod.mk.injEq] at h
      rcases h with ⟨rfl, rfl⟩
      exact Or.inl ⟨w, rfl, (fail_of_failure hs w).symm, hs⟩
  | none =>
      have hx : s.Has x := narrow_eq_ok_of_failure_eq_none hs h
      rw [narrow_of_has hs hx] at h
      dsimp only at h
      split at h
      · simp only [Except.ok.injEq, Prod.mk.injEq] at h
        rcases h with ⟨rfl, rfl⟩
        exact Or.inl ⟨_, rfl, (fail_of_failure_eq_none hs _).symm, rfl⟩
      · rename_i hempty
        simp only [Except.ok.injEq, Prod.mk.injEq] at h
        rcases h with ⟨rfl, rfl⟩
        rw [Bool.not_eq_true, Interval.isEmpty_eq_false_iff] at hempty
        exact Or.inr ⟨rfl, hx, hempty, rfl, rfl⟩

/-- A narrowing keeps the views within a store that have no value outside the given bounds, and if
there is such a view, it does not fail. -/
theorem keeps_narrow {s t : Store} {x : Var} {lb ub : Int} {reply : Except Wipeout Bool}
    (h : s.narrow x lb ub = .ok (reply, t)) (hs : s.failure = none) {V : View}
    (hV : V.Consistent) (hsV : s.Encloses V) (hd : V x ≤ ⟨lb, ub⟩) :
    t.failure = none ∧ t.Encloses V := by
  have hx : s.Has x := narrow_eq_ok_of_failure_eq_none hs h
  have hne := hV x
  have hle := Interval.le_inter (hsV x hx) hd
  rw [Interval.le_iff] at hle
  have hleft : ((s.view x).inter ⟨lb, ub⟩).isEmpty = false := by
    rw [Interval.isEmpty_eq_false_iff]
    omega
  rw [narrow_of_has hs hx] at h
  simp only [hleft, Bool.false_eq_true, if_false, Except.ok.injEq, Prod.mk.injEq] at h
  rcases h with ⟨-, rfl⟩
  rw [failure_cut]
  exact ⟨hs, hsV.cut hx hd⟩

namespace Narrowing

variable {s t u : Store}

/-- Induction over the two effects that a narrowing operation can have. -/
@[elab_as_elim]
theorem induct {motive : Store → Prop} (refl : motive s)
    (fail : ∀ t w, Narrowing s t → motive t → motive (t.fail w))
    (cut : ∀ t x d, Narrowing s t → motive t → t.failure = none → t.Has x →
      ((t.view x).inter d).lb ≤ ((t.view x).inter d).ub → motive (t.cut x d))
    (h : Narrowing s t) : motive t := by
  induction h with
  | refl => exact refl
  | narrow hst hnarrow ih =>
      rcases narrow_cases hnarrow with ⟨w, -, rfl, -⟩ | ⟨hnone, hx, hne, -, rfl⟩
      · exact fail _ w hst ih
      · exact cut _ _ _ hst ih hnone hx hne
  | wipeOut hst hwipe ih =>
      rw [wipeOut_eq_ok hwipe]
      exact fail _ _ hst ih

theorem trans (hst : Narrowing s t) (htu : Narrowing t u) : Narrowing s u := by
  induction htu with
  | refl => exact hst
  | narrow _ h ih => exact ih.narrow h
  | wipeOut _ h ih => exact ih.wipeOut h

theorem size_eq (h : Narrowing s t) : t.domains.size = s.domains.size := by
  refine induct ?_ ?_ ?_ h
  · rfl
  · intro t w _ ih
    rw [domains_fail]
    exact ih
  · intro t x d _ ih _ _ _
    rw [size_cut]
    exact ih

theorem has_iff (h : Narrowing s t) {x : Var} : t.Has x ↔ s.Has x := by
  unfold Has
  rw [h.size_eq]

theorem view_le (h : Narrowing s t) : t.view ≤ s.view := by
  refine induct ?_ ?_ ?_ h
  · exact le_rfl
  · intro t w _ ih
    rw [view_fail]
    exact ih
  · intro t x d _ ih _ hx _
    rw [view_cut hx]
    exact (View.cut_le _ _ _).trans ih

theorem eq_of_failure {w : Wipeout} (h : Narrowing s t) (hs : s.failure = some w) : t = s := by
  refine induct ?_ ?_ ?_ h
  · rfl
  · rintro t v - rfl
    exact fail_of_failure hs v
  · rintro t x d - rfl hnone _ _
    rw [hs] at hnone
    contradiction

theorem failure_eq_none (h : Narrowing s t) (ht : t.failure = none) : s.failure = none := by
  cases hs : s.failure with
  | none => rfl
  | some w =>
      rw [h.eq_of_failure hs, hs] at ht
      contradiction

/-- A domain that has a value keeps one. -/
theorem lb_le_ub (h : Narrowing s t) {x : Var} (hx : (s.view x).lb ≤ (s.view x).ub) :
    (t.view x).lb ≤ (t.view x).ub := by
  refine induct ?_ ?_ ?_ h
  · exact hx
  · intro t w _ ih
    rw [view_fail]
    exact ih
  · intro t y d _ ih _ hy hne
    rw [view_cut hy]
    by_cases hxy : x = y
    · subst hxy
      rw [View.cut_self]
      exact hne
    · rw [View.cut_of_ne _ hxy]
      exact ih

theorem view_consistent (h : Narrowing s t) (hs : s.view.Consistent) : t.view.Consistent :=
  fun x => h.lb_le_ub (hs x)

theorem consistent (h : Narrowing s t) (hs : s.Consistent) (ht : t.failure = none) :
    t.Consistent where
  failure := ht
  view := h.view_consistent hs.view
  least x := (hs.least x).trans (h.view_le x).1
  greatest x := (h.view_le x).2.trans (hs.greatest x)

theorem encloses (h : Narrowing s t) {V : View} (ht : t.Encloses V) : s.Encloses V := by
  intro x hx
  exact (ht x (h.has_iff.mpr hx)).trans (h.view_le x)

theorem mem_changes (h : Narrowing s t) {x : Var} (hx : x ∈ s.changes) : x ∈ t.changes := by
  refine induct ?_ ?_ ?_ h
  · exact hx
  · intro t w _ ih
    rw [changes_fail]
    exact ih
  · intro t y d _ ih _ _ _
    unfold Store.cut
    dsimp only
    split
    · exact ih
    · exact Array.mem_push_of_mem y ih

/-- A variable whose domain is not what it was is recorded. -/
theorem mem_changes_of_ne (h : Narrowing s t) {x : Var} (hx : t.view x ≠ s.view x) :
    x ∈ t.changes := by
  revert hx
  refine induct ?_ ?_ ?_ h
  · intro hne
    exact absurd rfl hne
  · intro t w _ ih
    rw [view_fail, changes_fail]
    exact ih
  · intro t y d _ ih _ hy _ hne
    by_cases hsame : t.view y ≤ d
    · rw [cut_of_le hsame] at hne ⊢
      exact ih hne
    · have hchanges : (t.cut y d).changes = t.changes.push y := by
        unfold Store.cut
        rw [if_neg (by rwa [Interval.inter_eq_left_iff])]
      rw [hchanges]
      by_cases hxy : x = y
      · subst hxy
        exact Array.mem_push_self
      · rw [view_cut hy, View.cut_of_ne _ hxy] at hne
        exact Array.mem_push_of_mem y (ih hne)

theorem view_eq_of_view_eq (hst : Narrowing s t) (htu : Narrowing t u)
    (hview : u.view = s.view) : t.view = s.view := by
  apply le_antisymm hst.view_le
  rw [← hview]
  exact htu.view_le

/-- Without a change of a domain, only a failure can be new. -/
theorem eq_or_eq_fail (h : Narrowing s t) (hview : t.view = s.view) :
    t = s ∨ ∃ w, t = s.fail w := by
  revert hview
  refine induct ?_ ?_ ?_ h
  · intro _
    exact Or.inl rfl
  · intro t w _ ih hview
    rw [view_fail] at hview
    rcases ih hview with rfl | ⟨v, rfl⟩
    · exact Or.inr ⟨w, rfl⟩
    · right
      refine ⟨v, ?_⟩
      cases hv : (s.fail v).failure with
      | none => exact absurd hv (failure_fail_ne_none s v)
      | some _ => exact fail_of_failure hv w
  · intro t x d hst ih _ hx _ hview
    rw [view_cut hx] at hview
    have hcut : t.view.cut x d = t.view := by
      apply le_antisymm (View.cut_le _ _ _)
      rw [hview]
      exact hst.view_le
    rw [cut_of_le (View.cut_eq_self_iff.mp hcut)]
    exact ih (hcut.symm.trans hview)

theorem eq_of_view_eq (h : Narrowing s t) (ht : t.failure = none) (hview : t.view = s.view) :
    t = s := by
  rcases h.eq_or_eq_fail hview with rfl | ⟨w, rfl⟩
  · rfl
  · exact absurd ht (failure_fail_ne_none s w)

end Narrowing

/-- The same variables, with domains that are not larger. -/
structure Below (t s : Store) : Prop where
  size : t.domains.size = s.domains.size
  view : t.view ≤ s.view

namespace Below

variable {s t u : Store}

theorem of_narrowing (h : Narrowing s t) : t.Below s where
  size := h.size_eq
  view := h.view_le

theorem refl (s : Store) : s.Below s where
  size := rfl
  view := le_rfl

theorem trans (hut : u.Below t) (hts : t.Below s) : u.Below s where
  size := hut.size.trans hts.size
  view := hut.view.trans hts.view

theorem has_iff (h : t.Below s) {x : Var} : t.Has x ↔ s.Has x := by
  unfold Has
  rw [h.size]

theorem encloses (h : t.Below s) {V : View} (ht : t.Encloses V) : s.Encloses V := by
  intro x hx
  exact (ht x (h.has_iff.mpr hx)).trans (h.view x)

end Below

/-! ## The weight of a store -/

private theorem foldr_size_set_lt {ds : List Interval} {i : Nat} {d e : Interval}
    (hi : ds[i]? = some d) (hsize : e.size < d.size) :
    (ds.set i e).foldr (fun d total => d.size + total) 0 <
      ds.foldr (fun d total => d.size + total) 0 := by
  induction ds generalizing i with
  | nil => simp at hi
  | cons first rest ih =>
      cases i with
      | zero =>
          simp only [List.getElem?_cons_zero, Option.some.injEq] at hi
          subst hi
          simp only [List.set_cons_zero, List.foldr_cons]
          omega
      | succ i =>
          have hrest := ih (by simpa using hi)
          simp only [List.set_cons_succ, List.foldr_cons]
          omega

theorem weight_cut_lt {s : Store} {x : Var} {d : Interval} (hx : s.Has x) (hle : ¬ s.view x ≤ d)
    (hne : ((s.view x).inter d).lb ≤ ((s.view x).inter d).ub) :
    (s.cut x d).weight < s.weight := by
  have hchanged : (s.view x).inter d ≠ s.view x := by
    rwa [ne_eq, Interval.inter_eq_left_iff]
  have hsize := Interval.size_inter_lt hchanged (Interval.isEmpty_eq_false_iff.mpr hne)
  have hget : s.domains.toList[x.index]? = some (s.view x) := by
    have hfetch := domain_of_has hx
    unfold domain at hfetch
    rw [Table.fetch_eq_ok_iff] at hfetch
    simpa using hfetch
  unfold weight Store.cut
  rw [if_neg hchanged]
  simp only [Array.toList_setIfInBounds]
  exact foldr_size_set_lt hget hsize

theorem Narrowing.weight {s t : Store} (h : Narrowing s t) :
    t.domains = s.domains ∨ t.weight < s.weight := by
  refine induct ?_ ?_ ?_ h
  · exact Or.inl rfl
  · intro t w _ ih
    unfold Store.weight at *
    rw [domains_fail]
    exact ih
  · intro t x d _ ih _ hx hne
    by_cases hle : t.view x ≤ d
    · rw [cut_of_le hle]
      exact ih
    · have hlt := weight_cut_lt hx hle hne
      right
      rcases ih with heq | hlt'
      · have hsame : t.weight = s.weight := by
          unfold Store.weight
          rw [heq]
        omega
      · omega

/-- A narrowing that changes a domain lowers the weight. -/
theorem Narrowing.weight_lt {s t : Store} (h : Narrowing s t) (hne : t.view ≠ s.view) :
    t.weight < s.weight := by
  rcases h.weight with hsame | hlt
  · exact absurd (congrArg Table.view hsame) hne
  · exact hlt

end Store

end FiniteDomain
