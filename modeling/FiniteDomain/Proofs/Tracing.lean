import FiniteDomain.Proofs.Requests

/-!
# Tracing what was asked for

A model is traced back to the bounds that were asked for and the constraints that were posted.  No
propagation has ever removed a closed view from these bounds, and no domain exceeds them.  This is
true after any sequence of requests, also of a model that has failed.
-/

namespace FiniteDomain

section Asked

variable {asked : Table Interval} {V : View} {x : Var} {d : Interval}

@[simp]
theorem Table.size_cut : (asked.cut x d).size = asked.size := by
  unfold Table.cut
  exact Array.size_modify

theorem Table.view_cut (hx : x.index < asked.size) : (asked.cut x d).view = asked.view.cut x d := by
  funext y
  unfold Table.cut Table.view View.cut
  rw [Array.getElem?_modify]
  by_cases hyx : y = x
  · subst hyx
    simp [hx]
  · have hindex : ¬ x.index = y.index := fun heq => hyx (Var.index_inj.mp heq).symm
    simp [hyx, hindex]

theorem Store.encloses_cut_iff :
    (Store.ofBox (asked.cut x d)).Encloses V ↔
      (Store.ofBox asked).Encloses V ∧ (x.index < asked.size → V x ≤ d) := by
  unfold Store.Encloses Store.Has Store.ofBox Store.view
  simp only [Table.size_cut]
  by_cases hx : x.index < asked.size
  · rw [Table.view_cut hx]
    constructor
    · intro h
      refine ⟨fun y hy => (h y hy).trans (View.cut_le _ _ _ y), fun _ => ?_⟩
      have hself := h x hx
      rw [View.cut_self] at hself
      exact hself.trans (by
        simp only [Interval.le_iff, Interval.lb_inter, Interval.ub_inter]
        omega)
    · rintro ⟨h, hd⟩ y hy
      apply View.le_cut (h y hy)
      rintro rfl
      exact hd hy
  · have hsame : asked.cut x d = asked := by
      unfold Table.cut
      apply Array.ext_getElem?
      intro k
      rw [Array.getElem?_modify]
      split
      · rename_i hk
        subst hk
        rw [Array.getElem?_eq_none (by omega)]
        rfl
      · rfl
    rw [hsame]
    simp [hx]

theorem Store.encloses_push_iff :
    (Store.ofBox (asked.push d)).Encloses V ↔
      (Store.ofBox asked).Encloses V ∧ V ⟨asked.size⟩ ≤ d := by
  unfold Store.Encloses Store.Has Store.ofBox Store.view
  simp only [Array.size_push, Table.view_push]
  constructor
  · intro h
    constructor
    · intro y hy
      have hold := h y (by omega)
      rwa [if_neg (by omega)] at hold
    · have hnew := h ⟨asked.size⟩ (Nat.lt_succ_self _)
      rwa [if_pos rfl] at hnew
  · rintro ⟨h, hd⟩ y hy
    by_cases hyx : y.index = asked.size
    · obtain rfl : y = ⟨asked.size⟩ := Var.index_inj.mp hyx
      rw [if_pos rfl]
      exact hd
    · rw [if_neg hyx]
      exact h y (by omega)

end Asked

namespace Model

/-- What is known of a model from the bounds that were asked for: closed views within them are never
lost, and a model that is not failed lies within them. -/
structure Traced (asked : Table Interval) (ps : List Posting) (m : Model) : Prop where
  size : asked.size = m.store.domains.size
  keeps : ∀ V : View, V.Consistent → (∀ p ∈ ps, Filtering.Closed p.constraint V) →
    (Store.ofBox asked).Encloses V → m.store.failure = none ∧ m.store.Encloses V
  within : m.store.failure = none → (Store.ofBox asked).Encloses m.store.view
  sound : m.store.failure = none → m.Sound ps

variable {asked : Table Interval} {ps qs : List Posting} {m n : Model}

theorem traced_empty : Traced #[] [] Node.empty where
  size := rfl
  keeps _ _ _ _ := ⟨rfl, fun _ hx => absurd hx (Nat.not_lt_zero _)⟩
  within _ _ hx := absurd hx (Nat.not_lt_zero _)
  sound _ := sound_empty

theorem Traced.afterNewVar (h : m.Traced asked ps) (lb ub : Int) :
    Traced (asked.push (.granted lb ub)) ps (m.newVar lb ub).2 where
  size := by
    have hsize : (m.newVar lb ub).2.store.domains.size = m.store.domains.size + 1 := by
      unfold Node.newVar Store.newVar
      dsimp only
      split <;> simp
    rw [Array.size_push, hsize, h.size]
  keeps V hV hclosed hasked := by
    rw [Store.encloses_push_iff] at hasked
    rcases hasked with ⟨hold, hnew⟩
    obtain ⟨hfine, hmV⟩ := h.keeps V hV hclosed hold
    have hne := hV ⟨asked.size⟩
    unfold Interval.granted at hnew
    split at hnew
    · rw [Interval.le_iff] at hnew
      dsimp only at hnew
      omega
    · rcases newVar_cases m lb ub with ⟨hout, -⟩ | ⟨-, heq⟩
      · rw [Interval.le_iff] at hnew
        dsimp only at hnew
        omega
      · rw [heq]
        refine ⟨hfine, ?_⟩
        intro x hx
        rw [Store.view_push]
        rcases Store.has_push.mp hx with hx | hx
        · rw [if_neg (Nat.ne_of_lt hx)]
          exact hmV x hx
        · obtain rfl : x = ⟨m.store.domains.size⟩ := Var.index_inj.mp hx
          rw [if_pos rfl, ← h.size]
          exact hnew
  within hfine := by
    rcases newVar_cases m lb ub with ⟨-, hfailed⟩ | ⟨⟨hleast, hle, hgreatest⟩, heq⟩
    · exact absurd hfine hfailed
    · rw [heq] at hfine ⊢
      rw [Store.encloses_push_iff, h.size]
      constructor
      · intro x hx
        have hx' : m.store.Has x := lt_of_lt_of_eq hx h.size
        rw [Store.view_push_of_has hx']
        exact h.within hfine x hx
      · rw [Store.view_push, if_pos rfl]
        unfold Interval.granted
        rw [if_neg (by omega)]
  sound hfine := by
    rcases newVar_cases m lb ub with ⟨-, hfailed⟩ | ⟨-, heq⟩
    · exact absurd hfine hfailed
    · have hold : m.store.failure = none := by
        rw [heq] at hfine
        exact hfine
      exact (h.sound hold).afterNewVar hfine

theorem Traced.afterNarrow (h : m.Traced asked ps) {x : Var} {d : Interval} {t : Store}
    {reply : Except Wipeout Bool} (hnarrow : m.store.narrow x d.lb d.ub = .ok (reply, t)) :
    Traced (asked.cut x d) ps { m with store := t } where
  size := by
    rw [Table.size_cut, h.size]
    exact (Store.Narrowing.refl.narrow hnarrow).size_eq.symm
  keeps V hV hclosed hasked := by
    rw [Store.encloses_cut_iff] at hasked
    rcases hasked with ⟨hold, hcut⟩
    obtain ⟨hfine, hmV⟩ := h.keeps V hV hclosed hold
    have hhas : m.store.Has x := Store.narrow_eq_ok_of_failure_eq_none hfine hnarrow
    rw [h.size] at hcut
    exact Store.keeps_narrow hnarrow hfine hV hmV (hcut hhas)
  within hfine := by
    have hst := Store.Narrowing.refl.narrow hnarrow
    have hold := hst.failure_eq_none hfine
    rw [Store.encloses_cut_iff]
    constructor
    · intro y hy
      exact (hst.view_le y).trans (h.within hold y hy)
    · intro hx
      rcases Store.narrow_cases hnarrow with ⟨w, -, -, hfailed⟩ | ⟨-, hhas, -, -, rfl⟩
      · rw [hfailed] at hfine
        contradiction
      · rw [Store.view_cut hhas, View.cut_self]
        simp only [Interval.le_iff, Interval.lb_inter, Interval.ub_inter]
        omega
  sound hfine := by
    have hst := Store.Narrowing.refl.narrow hnarrow
    exact (h.sound (hst.failure_eq_none hfine)).afterNarrowing hst hfine

theorem Traced.afterPost (h : m.Traced asked ps) (p : Posting)
    (hvars : ∀ x ∈ p.vars, m.store.Has x) :
    Traced asked (ps ++ [p]) (m.post p.constraint).2 := by
  have hstore : (m.post p.constraint).2.store = m.store := by
    unfold Node.post
    split <;> rfl
  refine ⟨?_, ?_, ?_, ?_⟩
  · rw [hstore]
    exact h.size
  · intro V hV hclosed hasked
    rw [hstore]
    apply h.keeps V hV _ hasked
    intro q hq
    exact hclosed q (List.mem_append_left _ hq)
  · rw [hstore]
    exact h.within
  · intro hfine
    rw [hstore] at hfine
    exact (h.sound hfine).afterPost p hvars

theorem Traced.afterBranch (h : m.Traced asked ps) {b : Strategy} (hfresh : b.IsFresh) :
    Traced asked ps (m.branch b).2 := by
  have hstore : (m.branch b).2.store = m.store := by
    unfold Node.branch
    split <;> rfl
  refine ⟨?_, ?_, ?_, ?_⟩
  · rw [hstore]
    exact h.size
  · rw [hstore]
    exact h.keeps
  · rw [hstore]
    exact h.within
  · intro hfine
    rw [hstore] at hfine
    exact (h.sound hfine).afterBranch hfresh

theorem Traced.afterChoose (h : m.Traced asked ps) {choice : Option Choice}
    (hchoose : m.choose = .ok (choice, n)) : n.Traced asked ps := by
  have hfine := failure_eq_none_of_choose hchoose
  have hstore := ((h.sound hfine).remembers.chooses hchoose).store
  refine ⟨?_, ?_, ?_, ?_⟩
  · rw [hstore]
    exact h.size
  · rw [hstore]
    exact h.keeps
  · rw [hstore]
    exact h.within
  · intro _
    exact (h.sound hfine).afterChoose hchoose

/-- The answer of a propagation that has found what is greatest within the bounds asked for. -/
structure Greatest (asked : Table Interval) (ps : List Posting) (failure : Option Wipeout)
    (n : Model) : Prop where
  traced : n.Traced asked ps
  agrees : n.store.failure = failure
  closed : failure = none → ∀ p ∈ ps, p.Distinct → Filtering.Closed p.constraint n.store.view

theorem Sound.mem_propagators (h : m.Sound ps) {p : Posting} (hp : p ∈ ps) :
    p.constraint ∈ m.engine.propagators := by
  rw [h.propagators]
  exact List.mem_map_of_mem hp

/-- A traced model is propagated without a fault, failed or not. -/
theorem Traced.propagate_eq_ok (h : m.Traced asked ps) :
    ∃ failure events n, m.propagate = .ok (failure, events, n) ∧
      Greatest asked ps failure n := by
  cases hm : m.store.failure with
  | some w =>
      refine ⟨some w, [], { m with engine := m.engine.clearAgenda }, propagate_of_failure hm,
        ⟨h.size, h.keeps, h.within, ?_⟩, hm, by simp⟩
      intro hfine
      rw [hm] at hfine
      contradiction
  | none =>
      have hsound := h.sound hm
      obtain ⟨r, hr, hreaches⟩ := hsound.propagate_eq_ok
      refine ⟨_, _, _, hr, ⟨?_, ?_, ?_, ?_⟩, hreaches.failure, ?_⟩
      · rw [h.size]
        exact hreaches.below.size.symm
      · intro V hV hclosed hasked
        obtain ⟨-, hmV⟩ := h.keeps V hV hclosed hasked
        dsimp only
        rw [hreaches.failure]
        apply hreaches.keeps V hV _ hmV
        rw [hsound.propagators]
        intro q hq
        rcases List.mem_map.mp hq with ⟨p, hp, rfl⟩
        exact hclosed p hp
      · intro _ x hx
        exact (hreaches.below.view x).trans (h.within hm x hx)
      · intro hfine
        exact hsound.afterPropagate hreaches (hreaches.failure.symm.trans hfine)
      · intro hnone p hp hdistinct
        exact hreaches.closed hnone (hsound.mem_propagators hp) (Posting.settles_iff.mpr hdistinct)

theorem Reachable.traced (h : Reachable asked ps m) : m.Traced asked ps := by
  induction h with
  | empty => exact traced_empty
  | newVar _ lb ub ih => exact ih.afterNewVar lb ub
  | narrow _ hupdate ih =>
      obtain ⟨hnarrow, heq⟩ := Node.update_eq_ok hupdate
      rw [heq]
      exact ih.afterNarrow hnarrow
  | post _ p hvars ih => exact ih.afterPost p hvars
  | branch _ b hfresh ih => exact ih.afterBranch hfresh
  | choose _ hchoose ih => exact ih.afterChoose hchoose
  | commit _ hb hrange hcommit ih =>
      obtain ⟨-, heq, b', x', d', changed, hb', hrange', hnarrow, -⟩ := commit_eq_ok hcommit
      rw [hb, Option.some.injEq] at hb'
      subst hb'
      rw [hrange, Except.ok.injEq, Prod.mk.injEq] at hrange'
      rcases hrange' with ⟨rfl, rfl⟩
      rw [heq]
      exact ih.afterNarrow hnarrow
  | propagate _ hpropagate ih =>
      obtain ⟨failure, events, n, hrun, hgreatest⟩ := ih.propagate_eq_ok
      rw [hpropagate, Except.ok.injEq, Prod.mk.injEq, Prod.mk.injEq] at hrun
      rcases hrun with ⟨-, -, rfl⟩
      exact hgreatest.traced

theorem Reachable.sound (h : Reachable asked ps m) (hfine : m.store.failure = none) : m.Sound ps :=
  h.traced.sound hfine

end Model

end FiniteDomain
