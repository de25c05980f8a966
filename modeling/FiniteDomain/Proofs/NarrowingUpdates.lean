import FiniteDomain.Proofs.Lineage

/-!
# Updates that only narrow

A propagator may be written by anybody.  All that is asked of it here is that it changes a store by
narrowing, and in no other way; what it removes, and whether it should, is its own affair.  Updates
that are put together from such updates are of this kind again, and so are the propagators of the
library.

When all propagators are of this kind, domains only shrink on the way from a node to the nodes below,
a failure is never taken back, and a node that is not failed has consistent domains.
-/

namespace FiniteDomain

namespace Update

variable {α β : Type}

/-- The update changes a store by narrowing it, whatever its answer is. -/
def Narrows (u : Update α) : Prop :=
  ∀ (s t : Store) (reply : Except Wipeout α), u.apply s = .ok (reply, t) → s.Narrowing t

theorem narrows_pure (a : α) : (pure a : Update α).Narrows := by
  intro s t reply h
  rcases Prod.mk.inj (Except.ok.inj h) with ⟨-, rfl⟩
  exact .refl

theorem Narrows.bind {u : Update α} {k : α → Update β} (hu : u.Narrows)
    (hk : ∀ a, (k a).Narrows) : (u >>= k).Narrows := by
  intro s t reply h
  rw [apply_bind] at h
  split at h
  · rename_i a v hfirst
    exact (hu s v _ hfirst).trans (hk a v t _ h)
  · rename_i w v hfirst
    rcases Prod.mk.inj (Except.ok.inj h) with ⟨-, rfl⟩
    exact hu s _ _ hfirst
  · contradiction

theorem narrows_read (f : Store → Except Fault α) : (read f).Narrows := by
  intro s t reply h
  rw [apply_read] at h
  cases hf : f s with
  | error fault =>
      rw [hf] at h
      contradiction
  | ok a =>
      rw [hf] at h
      rcases Prod.mk.inj (Except.ok.inj h) with ⟨-, rfl⟩
      exact .refl

theorem narrows_fault (f : Fault) : (fault f : Update α).Narrows := by
  intro s t reply h
  contradiction

theorem narrows_narrow (x : Var) (lb ub : Int) : (narrow x lb ub).Narrows := by
  intro s t reply h
  exact .narrow .refl h

theorem narrows_wipeOut (x : Var) : (wipeOut x : Update α).Narrows := by
  intro s t reply h
  unfold wipeOut at h
  rw [apply_ofFunction] at h
  cases hwipe : s.wipeOut x with
  | error fault =>
      rw [hwipe] at h
      contradiction
  | ok r =>
      rw [hwipe] at h
      rcases Prod.mk.inj (Except.ok.inj h) with ⟨-, rfl⟩
      exact .wipeOut .refl hwipe

/-- The updates that are put together from looks at the store, narrowings and wipeouts. -/
inductive Built : {α : Type} → Update α → Prop
  | pure {α : Type} (a : α) : Built (pure a : Update α)
  | read {α : Type} (f : Store → Except Fault α) : Built (read f)
  | fault {α : Type} (f : Fault) : Built (fault f : Update α)
  | narrow (x : Var) (lb ub : Int) : Built (narrow x lb ub)
  | wipeOut {α : Type} (x : Var) : Built (wipeOut x : Update α)
  | bind {α β : Type} {u : Update α} {k : α → Update β} (hu : Built u) (hk : ∀ a, Built (k a)) :
      Built (u >>= k)

theorem Built.discard {u : Update α} (hu : u.Built) : (discard u : Update Unit).Built := by
  have hunit := hu.bind fun _ => .pure ()
  rw [← discard_bind, bind_pure] at hunit
  exact hunit

theorem Built.narrows {u : Update α} (hu : u.Built) : u.Narrows := by
  induction hu with
  | pure a => exact narrows_pure a
  | read f => exact narrows_read f
  | fault f => exact narrows_fault f
  | narrow x lb ub => exact narrows_narrow x lb ub
  | wipeOut x => exact narrows_wipeOut x
  | bind _ _ ihu ihk => exact ihu.bind ihk

end Update

open Update

theorem Precedence.built_propagate (c : Precedence) : c.propagate.Built := by
  unfold propagate
  refine (Built.read _).bind fun earliest => ?_
  refine (Built.narrow _ _ _).discard.bind fun _ => ?_
  refine (Built.read _).bind fun latest => ?_
  refine (Built.narrow _ _ _).discard.bind fun _ => ?_
  refine (Built.read _).bind fun entailed => ?_
  cases entailed with
  | true => exact .pure _
  | false => exact .pure _

theorem Side.built_enforce (side : Side) (i j : Rectangle) : (side.enforce i j).Built := by
  unfold enforce
  refine (Built.read _).bind fun earliest => ?_
  refine (Built.narrow _ _ _).bind fun raised => ?_
  refine (Built.read _).bind fun latest => ?_
  refine (Built.narrow _ _ _).bind fun lowered => ?_
  exact .pure _

namespace NonOverlap

theorem built_prunePair (i j : Rectangle) : (prunePair i j).Built := by
  unfold prunePair
  refine (Built.read _).bind fun possible => ?_
  split
  · exact .wipeOut _
  · exact Side.built_enforce _ i j
  · exact .pure _

theorem built_sweep (pairs : List (Rectangle × Rectangle)) : (sweep pairs).Built := by
  induction pairs with
  | nil => exact .pure _
  | cons pair rest ih =>
      unfold sweep
      refine (built_prunePair _ _).bind fun changed => ?_
      exact ih.bind fun changedLater => .pure _

theorem built_settle (pairs : List (Rectangle × Rectangle)) (fuel : Nat) :
    (settle pairs fuel).Built := by
  induction fuel with
  | zero => exact .fault _
  | succ fuel ih =>
      unfold settle
      refine (built_sweep pairs).bind fun changed => ?_
      cases changed with
      | true => exact ih
      | false => exact .pure _

theorem built_propagate (c : NonOverlap) : c.propagate.Built := by
  unfold propagate
  refine (Built.read _).bind fun weight => ?_
  refine (built_settle _ _).bind fun _ => ?_
  refine (Built.read _).bind fun separated => ?_
  cases separated with
  | true => exact .pure _
  | false => exact .pure _

end NonOverlap

namespace Disequality

theorem built_trimLower (x : Var) (v : Int) : (trimLower x v).Built := by
  unfold trimLower
  refine (Built.read _).bind fun bound => ?_
  split
  · refine (Built.read _).bind fun raised => ?_
    exact (Built.narrow _ _ _).discard
  · exact .pure _

theorem built_trimUpper (x : Var) (v : Int) : (trimUpper x v).Built := by
  unfold trimUpper
  refine (Built.read _).bind fun bound => ?_
  split
  · refine (Built.read _).bind fun lowered => ?_
    exact (Built.narrow _ _ _).discard
  · exact .pure _

theorem built_prune (fixed other : Var) : (prune fixed other).Built := by
  rw [prune_eq]
  refine (Built.read _).bind fun value => ?_
  cases value with
  | none => exact .pure _
  | some v => exact (built_trimLower other v).bind fun _ => built_trimUpper other v

theorem built_propagate (c : Disequality) : c.propagate.Built := by
  unfold propagate
  refine (built_prune _ _).bind fun _ => ?_
  refine (built_prune _ _).bind fun _ => ?_
  refine (Built.read _).bind fun entailed => ?_
  cases entailed with
  | true => exact .pure _
  | false => exact .pure _

end Disequality

theorem Constraint.built_propagate (p : Constraint) : (Propagator.propagate p).Built := by
  cases p with
  | precedence c => exact c.built_propagate
  | nonOverlap c => exact c.built_propagate
  | disequality c => exact c.built_propagate

/-- The propagators of the library change a store by narrowing only. -/
theorem Constraint.narrows_propagate (p : Constraint) : (Propagator.propagate p).Narrows :=
  p.built_propagate.narrows

namespace Store

/-- The stores that come of a store by narrowing it and by forgetting recorded changes. -/
inductive Shrinks (s : Store) : Store → Prop
  | refl : Shrinks s s
  | narrowing {t u : Store} (hst : Shrinks s t) (htu : t.Narrowing u) : Shrinks s u
  | drain {t : Store} (hst : Shrinks s t) : Shrinks s t.drained

variable {s t u : Store}

theorem Shrinks.trans (hst : s.Shrinks t) (htu : t.Shrinks u) : s.Shrinks u := by
  induction htu with
  | refl => exact hst
  | narrowing _ hnarrowing ih => exact ih.narrowing hnarrowing
  | drain _ ih => exact ih.drain

theorem Below.of_shrinks (h : s.Shrinks t) : t.Below s := by
  induction h with
  | refl => exact .refl s
  | narrowing _ hnarrowing ih => exact (Below.of_narrowing hnarrowing).trans ih
  | drain _ ih => exact (below_drained _).trans ih

theorem Shrinks.lb_le_ub (h : s.Shrinks t) {x : Var} (hx : (s.view x).lb ≤ (s.view x).ub) :
    (t.view x).lb ≤ (t.view x).ub := by
  induction h with
  | refl => exact hx
  | narrowing _ hnarrowing ih => exact hnarrowing.lb_le_ub ih
  | drain _ ih => exact ih

/-- A failure is never taken back. -/
theorem Shrinks.failure_eq_none (h : s.Shrinks t) (ht : t.failure = none) : s.failure = none := by
  induction h with
  | refl => exact ht
  | narrowing _ hnarrowing ih => exact ih (hnarrowing.failure_eq_none ht)
  | drain _ ih => exact ih ht

theorem Shrinks.consistent (h : s.Shrinks t) (hs : s.Consistent) (ht : t.failure = none) :
    t.Consistent := by
  induction h with
  | refl => exact hs
  | narrowing _ hnarrowing ih =>
      exact hnarrowing.consistent (ih (hnarrowing.failure_eq_none ht)) ht
  | drain _ ih => exact (ih ht).drained

end Store

namespace Engine

variable {P : Type} [Propagator P] {e f : Engine P} {s t : Store} {events events' : List Event}
  {n : Nat} {outcome : Except Crash (Propagation P)} {r : Propagation P}

theorem shrinks_of_round (hnarrows : ∀ p : P, (Propagator.propagate p).Narrows)
    (h : e.round s events = .goesOn f t events') : s.Shrinks t := by
  cases acts_of_round h with
  | skips _ => exact .refl
  | @runs p _ _ _ t _ _ _ _ _ happly =>
      exact (Store.Shrinks.narrowing .refl (hnarrows p s t _ happly)).drain

theorem shrinks_of_last (hnarrows : ∀ p : P, (Propagator.propagate p).Narrows)
    (h : e.round s events = .ends (.ok r)) : s.Shrinks r.store := by
  cases acts_of_round h with
  | rests _ => exact .refl
  | @fails p _ _ _ t _ _ happly _ => exact .narrowing .refl (hnarrows p s t _ happly)

theorem EndsIn.shrinks (hnarrows : ∀ p : P, (Propagator.propagate p).Narrows)
    (h : EndsIn n e s events outcome) (hr : outcome = .ok r) : s.Shrinks r.store := by
  induction h with
  | last hround => exact shrinks_of_last hnarrows (hr ▸ hround)
  | more hround _ ih => exact (shrinks_of_round hnarrows hround).trans (ih hr)

/-- Propagators that only narrow let an engine shrink a store, and do nothing else to it. -/
theorem propagate_shrinks (hnarrows : ∀ p : P, (Propagator.propagate p).Narrows)
    (h : e.propagate s = .ok r) : s.Shrinks r.store := by
  cases propagates_of_propagate h with
  | refused _ => exact .refl
  | settled _ _ hrounds => exact (Store.Shrinks.drain .refl).trans (hrounds.shrinks hnarrows rfl)

end Engine

namespace Node

variable {P : Type} [Propagator P] {n m : Node P Strategy}

/-- What a request does to the domains: one is added, or they shrink. -/
theorem Request.store (hnarrows : ∀ p : P, (Propagator.propagate p).Narrows) (h : n.Request m) :
    (∃ lb ub, m.store = (n.store.newVar lb ub).2) ∨ n.store.Shrinks m.store := by
  cases h with
  | newVar lb ub => exact Or.inl ⟨lb, ub, rfl⟩
  | narrow h =>
      have hnarrowing := narrows_narrow _ _ _ _ _ _ (update_eq_ok h).1
      exact Or.inr (.narrowing .refl hnarrowing)
  | post p =>
      unfold Node.post
      split
      · exact Or.inr .refl
      · exact Or.inr .refl
  | branch b hfresh =>
      unfold Node.branch
      split
      · exact Or.inr .refl
      · exact Or.inr .refl
  | choose h =>
      rw [(choose_frame h).1]
      exact Or.inr .refl
  | commit h =>
      obtain ⟨b, -, hcommit, -⟩ := commit_eq_update h
      obtain ⟨x, d, changed, -, hnarrow, -⟩ := Strategy.commit_eq_ok hcommit
      exact Or.inr (.narrowing .refl (.narrow .refl hnarrow))
  | propagate h =>
      obtain ⟨r, hr, -, -, hm⟩ := propagate_eq_ok h
      rw [hm]
      exact Or.inr (Engine.propagate_shrinks hnarrows hr)

theorem failure_newVar_ne_none {s : Store} (hs : s.failure ≠ none) (lb ub : Int) :
    (s.newVar lb ub).2.failure ≠ none := by
  rcases s.newVar_cases lb ub with ⟨-, hfailed⟩ | ⟨-, heq⟩
  · exact hfailed
  · rw [heq]
    exact hs

theorem Request.failure_eq_none (hnarrows : ∀ p : P, (Propagator.propagate p).Narrows)
    (h : n.Request m) (hm : m.store.failure = none) : n.store.failure = none := by
  rcases h.store hnarrows with ⟨lb, ub, hstore⟩ | hshrinks
  · rw [hstore] at hm
    by_contra hn
    exact failure_newVar_ne_none hn lb ub hm
  · exact hshrinks.failure_eq_none hm

theorem Request.consistent (hnarrows : ∀ p : P, (Propagator.propagate p).Narrows)
    (h : n.Request m) (hn : n.store.Consistent) (hm : m.store.failure = none) :
    m.store.Consistent := by
  rcases h.store hnarrows with ⟨lb, ub, hstore⟩ | hshrinks
  · rw [hstore] at hm ⊢
    rcases n.store.newVar_cases lb ub with ⟨-, hfailed⟩ | ⟨hrange, heq⟩
    · exact absurd hm hfailed
    · rw [heq]
      exact hn.push hrange.1 hrange.2.1 hrange.2.2
  · exact hshrinks.consistent hn hm

end Node

end FiniteDomain
