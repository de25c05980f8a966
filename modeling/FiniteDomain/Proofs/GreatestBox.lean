import FiniteDomain.Proofs.Tracing

/-!
# The greatest stable box

A box is stable when its domains have values and no propagator, run on it alone, changes a domain.
Propagation finds the greatest stable box within the current domains, or a failure if there is none.

The current domains depend on the order of the requests that led to them, the answer does not.  The
argument goes through the bounds that were asked for: no propagation has ever removed a closed view
from them, so what is greatest within the current domains is greatest within what was asked for.
-/

namespace FiniteDomain

namespace Table

variable {a b : Table Interval}

/-- A domain for each variable of the other box, and part of it. -/
structure Within (a b : Table Interval) : Prop where
  size : a.size = b.size
  subset : ∀ (k : Nat) (d e : Interval), a[k]? = some d → b[k]? = some e → d ⊆ e

theorem view_of_getElem? {x : Var} {d : Interval} (h : a[x.index]? = some d) : a.view x = d := by
  unfold Table.view
  rw [h]
  rfl

theorem eq_of_view_eq (hsize : a.size = b.size) (hview : a.view = b.view) : a = b := by
  apply Array.ext hsize
  intro k ha hb
  have hx := congrFun hview ⟨k⟩
  rwa [view_of_getElem? (Array.getElem?_eq_getElem ha),
    view_of_getElem? (Array.getElem?_eq_getElem hb)] at hx

/-- Out of their range, boxes of the same size look the same. -/
theorem view_le_of_size_eq (hsize : a.size = b.size)
    (hle : ∀ x : Var, x.index < b.size → a.view x ≤ b.view x) : a.view ≤ b.view := by
  intro x
  by_cases hx : x.index < b.size
  · exact hle x hx
  · unfold Table.view
    rw [Array.getElem?_eq_none (by omega), Array.getElem?_eq_none (by omega)]

theorem Within.view_le (h : a.Within b) (hne : ∀ d ∈ a, d.lb ≤ d.ub) : a.view ≤ b.view := by
  apply view_le_of_size_eq h.size
  intro x hb
  have hx : x.index < a.size := h.size ▸ hb
  have hd := Array.getElem?_eq_getElem hx
  have he := Array.getElem?_eq_getElem hb
  rw [view_of_getElem? hd, view_of_getElem? he]
  have hle := hne _ (Array.getElem_mem hx)
  rcases h.subset x.index _ _ hd he with hempty | hsub
  · omega
  · exact hsub

theorem within_of_view_le (hsize : a.size = b.size) (hle : a.view ≤ b.view) : a.Within b where
  size := hsize
  subset k d e hd he := by
    have hx := hle ⟨k⟩
    rw [view_of_getElem? hd, view_of_getElem? he] at hx
    exact Or.inr hx

theorem view_consistent_iff : a.view.Consistent ↔ ∀ d ∈ a, d.lb ≤ d.ub := by
  constructor
  · intro h d hd
    rcases Array.mem_iff_getElem.mp hd with ⟨k, hk, rfl⟩
    have hx := h ⟨k⟩
    rwa [view_of_getElem? (Array.getElem?_eq_getElem hk)] at hx
  · intro h x
    by_cases hx : x.index < a.size
    · rw [view_of_getElem? (Array.getElem?_eq_getElem hx)]
      exact h _ (Array.getElem_mem hx)
    · unfold Table.view
      rw [Array.getElem?_eq_none (by omega)]
      exact le_rfl

end Table

/-- Run on the box alone, the propagator neither fails nor changes a domain. -/
def Propagator.Accepts {P : Type} [Propagator P] (p : P) (box : Table Interval) : Prop :=
  ∃ verdict t, (Propagator.propagate p).apply (Store.ofBox box) = .ok (.ok verdict, t) ∧
    t.domains = box

/-- The domains have values, and none of the propagators changes one, retired or not. -/
structure Engine.Stable {P : Type} [Propagator P] (e : Engine P) (box : Table Interval) : Prop where
  nonempty : ∀ d ∈ box, d.lb ≤ d.ub
  accepted : ∀ p ∈ e.propagators, Propagator.Accepts p box

section Stability

variable {P : Type} [Propagator P] [Filtering P] {s : Store} {box : Table Interval} {p : P}

theorem Store.Consistent.ofBox (hs : s.Consistent) (hbox : box.Within s.domains)
    (hne : ∀ d ∈ box, d.lb ≤ d.ub) : (Store.ofBox box).Consistent where
  failure := rfl
  view := Table.view_consistent_iff.mpr hne
  least x := (hs.least x).trans (hbox.view_le hne x).1
  greatest x := (hbox.view_le hne x).2.trans (hs.greatest x)

theorem Filtering.accepts_iff (hp : Filtering.Admissible p) (hbox : (Store.ofBox box).Consistent)
    (hhas : ∀ x ∈ Propagator.watched p, (Store.ofBox box).Has x) :
    Propagator.Accepts p box ↔ Filtering.Closed p box.view := by
  obtain ⟨reply, t, happly, heffect, hpost⟩ := Filtering.prunes hp hbox hhas
  constructor
  · rintro ⟨verdict, u, hrun, hsame⟩
    rw [happly, Except.ok.injEq, Prod.mk.injEq] at hrun
    rcases hrun with ⟨rfl, rfl⟩
    have hview : t.view = box.view := congrArg Table.view hsame
    have hclosed := (hpost verdict rfl).1 hview
    rwa [hview] at hclosed
  · intro hclosed
    obtain ⟨⟨verdict, rfl⟩, htV⟩ :=
      heffect.keeps box.view hbox.view hclosed fun _ _ => le_rfl
    have hview : t.view = (Store.ofBox box).view := by
      have hsize : (Store.ofBox box).domains.size = t.domains.size := heffect.narrowing.size_eq.symm
      exact le_antisymm heffect.narrowing.view_le (Table.view_le_of_size_eq hsize htV)
    have hsame := heffect.narrowing.eq_of_view_eq heffect.agrees hview
    exact ⟨verdict, t, happly, congrArg Store.domains hsame⟩

end Stability

namespace Model

variable {asked : Table Interval} {ps qs : List Posting} {m n : Model}

/-- The bounds that were asked for and the closed views leave no room for another answer. -/
theorem Greatest.unique_of_closed_iff {failure failure' : Option Wipeout} {n' : Model}
    (h : Greatest asked ps failure n) (h' : Greatest asked qs failure' n')
    (hdistinct : ∀ p ∈ ps, p.Distinct) (hdistinct' : ∀ p ∈ qs, p.Distinct)
    (hsame : ∀ V : View, (∀ p ∈ qs, Filtering.Closed p.constraint V) ↔
      ∀ p ∈ ps, Filtering.Closed p.constraint V) :
    (failure' = none ↔ failure = none) ∧
      (failure = none → n'.store.domains = n.store.domains) := by
  -- the result of one propagation is a closed view that the other one has kept
  have hkept : failure = none → n'.store.failure = none ∧ n'.store.Encloses n.store.view := by
    intro hnone
    have hfine := h.agrees.trans hnone
    apply h'.traced.keeps _ (h.traced.sound hfine).consistent.view _ (h.traced.within hfine)
    rw [hsame]
    exact fun p hp => h.closed hnone p hp (hdistinct p hp)
  have hkept' : failure' = none → n.store.failure = none ∧ n.store.Encloses n'.store.view := by
    intro hnone
    have hfine := h'.agrees.trans hnone
    apply h.traced.keeps _ (h'.traced.sound hfine).consistent.view _ (h'.traced.within hfine)
    rw [← hsame]
    exact fun p hp => h'.closed hnone p hp (hdistinct' p hp)
  have hiff : failure' = none ↔ failure = none := by
    rw [← h.agrees, ← h'.agrees]
    constructor
    · intro hnone
      exact (hkept' (h'.agrees.symm.trans hnone)).1
    · intro hnone
      exact (hkept (h.agrees.symm.trans hnone)).1
  refine ⟨hiff, ?_⟩
  intro hnone
  have hsize : n'.store.domains.size = n.store.domains.size :=
    h'.traced.size.symm.trans h.traced.size
  apply Table.eq_of_view_eq hsize
  apply le_antisymm
  · exact Table.view_le_of_size_eq hsize (hkept' (hiff.mpr hnone)).2
  · exact Table.view_le_of_size_eq hsize.symm (hkept hnone).2

/-- The bounds that were asked for and the constraints leave no room for another answer. -/
theorem Greatest.unique {failure failure' : Option Wipeout} {n' : Model}
    (h : Greatest asked ps failure n) (h' : Greatest asked qs failure' n')
    (hdistinct : ∀ p ∈ ps, p.Distinct) (hsame : ∀ p, p ∈ qs ↔ p ∈ ps) :
    (failure' = none ↔ failure = none) ∧
      (failure = none → n'.store.domains = n.store.domains) := by
  apply h.unique_of_closed_iff h' hdistinct
  · exact fun p hp => hdistinct p ((hsame p).mp hp)
  · simp only [hsame, implies_true]

theorem Sound.stable_iff (h : m.Sound ps) {box : Table Interval}
    (hbox : box.Within m.store.domains) :
    m.engine.Stable box ↔
      box.view.Consistent ∧ ∀ p ∈ m.engine.propagators, Filtering.Closed p box.view := by
  have hhas : ∀ p ∈ m.engine.propagators, ∀ x ∈ Propagator.watched p, (Store.ofBox box).Has x := by
    intro p hp x hx
    exact lt_of_lt_of_eq (h.coherent.has p hp x hx) hbox.size.symm
  constructor
  · intro hstable
    have hconsistent := h.consistent.ofBox hbox hstable.nonempty
    refine ⟨hconsistent.view, ?_⟩
    intro p hp
    exact (Filtering.accepts_iff (h.coherent.admissible p hp) hconsistent (hhas p hp)).mp
      (hstable.accepted p hp)
  · rintro ⟨hview, hclosed⟩
    have hne := Table.view_consistent_iff.mp hview
    refine ⟨hne, ?_⟩
    intro p hp
    exact (Filtering.accepts_iff (h.coherent.admissible p hp) (h.consistent.ofBox hbox hne)
      (hhas p hp)).mpr (hclosed p hp)

theorem Sound.within_of_stable (h : m.Sound ps) {r : Propagation Constraint}
    (hreaches : m.engine.Reaches m.store r) {box : Table Interval}
    (hstable : m.engine.Stable box) (hwithin : box.Within m.store.domains) :
    r.failure = none ∧ box.Within r.store.domains := by
  rcases (h.stable_iff hwithin).mp hstable with ⟨hview, hclosed⟩
  have hle := hwithin.view_le hstable.nonempty
  obtain ⟨hnone, hkept⟩ := hreaches.keeps box.view hview hclosed fun x _ => hle x
  have hsize : box.size = r.store.domains.size := hwithin.size.trans hreaches.below.size.symm
  exact ⟨hnone, Table.within_of_view_le hsize (Table.view_le_of_size_eq hsize hkept)⟩

theorem Sound.stable_of_reaches (h : m.Sound ps) (hdistinct : ∀ p ∈ ps, p.Distinct)
    {r : Propagation Constraint} (hreaches : m.engine.Reaches m.store r)
    (hnone : r.failure = none) :
    m.engine.Stable r.store.domains ∧ r.store.domains.Within m.store.domains := by
  have hwithin := Table.within_of_view_le hreaches.below.size hreaches.below.view
  have hview := (hreaches.consistent hnone).view
  refine ⟨(h.stable_iff hwithin).mpr ⟨hview, ?_⟩, hwithin⟩
  intro p hp
  apply hreaches.closed hnone hp
  rw [h.propagators] at hp
  rcases List.mem_map.mp hp with ⟨q, hq, rfl⟩
  exact Posting.settles_iff.mpr (hdistinct q hq)

/-- Propagation does not fault.  It succeeds when there is a stable box within the current domains,
and then it leaves the greatest one.  Any model with the same constraints that was asked for the same
bounds, in whatever order, gives the same answer. -/
theorem propagate_greatest_stable (hm : Reachable asked ps m)
    (hdistinct : ∀ p ∈ ps, p.Distinct) (hfine : m.store.failure = none) :
    ∃ failure events n, m.propagate = .ok (failure, events, n) ∧
      (failure = none ↔ ∃ box, m.engine.Stable box ∧ box.Within m.store.domains) ∧
      (failure = none →
        m.engine.Stable n.store.domains ∧ n.store.domains.Within m.store.domains ∧
          ∀ box, m.engine.Stable box → box.Within m.store.domains →
            box.Within n.store.domains) ∧
      ∀ qs m', Reachable asked qs m' → (∀ p, p ∈ qs ↔ p ∈ ps) →
        ∃ failure' events' n', m'.propagate = .ok (failure', events', n') ∧
          (failure' = none ↔ failure = none) ∧
            (failure = none → n'.store.domains = n.store.domains) := by
  have hsound := hm.traced.sound hfine
  obtain ⟨r, hr, hreaches⟩ := hsound.propagate_eq_ok
  refine ⟨r.failure, r.events, _, hr, ?_, ?_, ?_⟩
  · constructor
    · intro hnone
      exact ⟨_, hsound.stable_of_reaches hdistinct hreaches hnone⟩
    · rintro ⟨box, hstable, hwithin⟩
      exact (hsound.within_of_stable hreaches hstable hwithin).1
  · intro hnone
    obtain ⟨hstable, hwithin⟩ := hsound.stable_of_reaches hdistinct hreaches hnone
    refine ⟨hstable, hwithin, ?_⟩
    intro box hbox hin
    exact (hsound.within_of_stable hreaches hbox hin).2
  · intro qs m' hm' hsame
    obtain ⟨failure, events, n, hrun, hgreatest⟩ := hm.traced.propagate_eq_ok
    obtain ⟨failure', events', n', hrun', hgreatest'⟩ := hm'.traced.propagate_eq_ok
    rw [hr, Except.ok.injEq, Prod.mk.injEq, Prod.mk.injEq] at hrun
    rcases hrun with ⟨rfl, -, rfl⟩
    exact ⟨failure', events', n', hrun', hgreatest.unique hgreatest' hdistinct hsame⟩

/-- The greatest stable box of the chain. -/
theorem propagate_greatest_stable_chain :
    ∃ events n, chain.propagate = .ok (none, events, n) ∧
      chain.engine.Stable #[⟨0, 1⟩, ⟨1, 2⟩] ∧
        ∀ box, chain.engine.Stable box → box.Within #[⟨0, 2⟩, ⟨0, 2⟩] →
          box.Within #[⟨0, 1⟩, ⟨1, 2⟩] := by
  obtain ⟨failure, events, n, hrun, -, hgreatest, -⟩ :=
    propagate_greatest_stable reachable_chain (by decide) rfl
  obtain ⟨result, hresult, hbox⟩ : ∃ result, chain.propagate = .ok (none, result) ∧
      result.2.store.domains = #[⟨0, 1⟩, ⟨1, 2⟩] := ⟨_, rfl, rfl⟩
  rw [hrun, Except.ok.injEq, Prod.mk.injEq] at hresult
  rcases hresult with ⟨rfl, rfl⟩
  obtain ⟨hstable, -, hlargest⟩ := hgreatest rfl
  dsimp only at hbox
  rw [hbox] at hstable hlargest
  exact ⟨events, n, hrun, hstable, hlargest⟩

end Model

end FiniteDomain
