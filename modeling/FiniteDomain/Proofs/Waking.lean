import FiniteDomain.Engine
import Mathlib.Tactic

/-!
# Waking

Which propagators wait after some of them were woken.  The parts of an engine fit together when a
propagator is listed under each variable that it watches, lists name posted propagators only, and
the agenda has a flag for each of them.  In such an engine waking cannot fault, and it lets all those
wait that watch a changed variable, except the retired ones and the one that made the change.
-/

namespace FiniteDomain

namespace Watches

variable {w : Watches} {x y : Var} {id other : PropagatorId}

theorem watchers_add (w : Watches) (x y : Var) (id : PropagatorId) :
    (w.add x id).watchers y =
      if y = x then
        if id ∈ w.watchers x then w.watchers x else w.watchers x ++ [id]
      else
        w.watchers y := by
  have hfill : ∀ i : Nat, ((w.lists.fill x.index [])[i]?.getD []) = (w.lists[i]?.getD []) := by
    intro i
    by_cases hi : i < w.lists.size
    · rw [Table.getElem?_fill_of_lt hi]
    · rw [Array.getElem?_eq_none (by omega : w.lists.size ≤ i)]
      unfold Table.fill
      rw [Array.getElem?_append_right (by omega), Array.getElem?_replicate]
      split <;> rfl
  have hsize : x.index < (w.lists.fill x.index []).size := by
    rw [Table.size_fill]
    omega
  unfold watchers add
  dsimp only
  rw [Array.getElem?_modify]
  by_cases hyx : y = x
  · subst hyx
    have hentry := hfill y.index
    rw [Array.getElem?_eq_getElem hsize, Option.getD_some] at hentry
    rw [if_pos rfl, if_pos rfl, Array.getElem?_eq_getElem hsize, hentry.symm]
    rfl
  · have hindex : ¬ x.index = y.index := fun heq => hyx (Var.index_inj.mp heq).symm
    rw [if_neg hindex, if_neg hyx, hfill]

theorem mem_watchers_add :
    other ∈ (w.add x id).watchers y ↔ other ∈ w.watchers y ∨ (y = x ∧ other = id) := by
  rw [watchers_add]
  by_cases hyx : y = x
  · subst hyx
    by_cases hid : id ∈ w.watchers y
    · rw [if_pos rfl, if_pos hid]
      constructor
      · exact Or.inl
      · rintro (hmem | ⟨-, rfl⟩)
        · exact hmem
        · exact hid
    · simp [hid]
  · simp [hyx]

theorem mem_watchers_addAll {xs : List Var} :
    other ∈ (w.addAll xs id).watchers y ↔ other ∈ w.watchers y ∨ (y ∈ xs ∧ other = id) := by
  induction xs generalizing w with
  | nil => simp [addAll]
  | cons x rest ih =>
      have hrest := ih (w := w.add x id)
      have hunfold : w.addAll (x :: rest) id = (w.add x id).addAll rest id := rfl
      rw [hunfold, hrest, mem_watchers_add, List.mem_cons, or_and_right, or_assoc]

theorem nodup_watchers_add (h : (w.watchers y).Nodup) : ((w.add x id).watchers y).Nodup := by
  rw [watchers_add]
  by_cases hyx : y = x
  · subst hyx
    by_cases hid : id ∈ w.watchers y
    · simpa [hid] using h
    · simpa [hid] using h.concat hid
  · simpa [hyx] using h

theorem nodup_watchers_addAll {xs : List Var} (h : (w.watchers y).Nodup) :
    ((w.addAll xs id).watchers y).Nodup := by
  induction xs generalizing w with
  | nil => exact h
  | cons x rest ih => exact ih (nodup_watchers_add h)

end Watches

namespace Agenda

theorem Consistent.mem_waiting_insert {a : Agenda} (ha : a.Consistent) {id other : PropagatorId} :
    other ∈ (a.insert id).waiting ↔ other ∈ a.waiting ∨ other = id := by
  rw [waiting_insert]
  by_cases hflag : a.queued[id]? = some true
  · have hmem := (ha.mem_iff id).mpr hflag
    rw [if_pos hflag]
    constructor
    · exact Or.inl
    · rintro (hother | rfl)
      · exact hother
      · exact hmem
  · simp [hflag]

@[simp]
theorem size_queued_insert (a : Agenda) (id : PropagatorId) :
    (a.insert id).queued.size = a.queued.size := by
  unfold insert
  split <;> simp

/-- No propagator waits twice, so that there are no more waiting than there are flags. -/
theorem Consistent.length_le {a : Agenda} (ha : a.Consistent) :
    a.waiting.length ≤ a.queued.size := by
  have hsub : a.waiting ⊆ List.range a.queued.size := by
    intro id hid
    exact List.mem_range.mpr (ha.lt_size hid)
  simpa using (ha.nodup.subperm hsub).length_le

end Agenda

namespace Engine

variable {P : Type}

/-- The propagators that were posted, in order, the retired ones included. -/
def propagators (e : Engine P) : List P :=
  e.posted.toList.map Posted.propagator

theorem getElem?_propagators (e : Engine P) (id : PropagatorId) :
    e.propagators[id]? = e.posted[id]?.map Posted.propagator := by
  unfold propagators
  rw [List.getElem?_map, Array.getElem?_toList]

theorem mem_propagators {e : Engine P} {p : P} :
    p ∈ e.propagators ↔
      ∃ (id : PropagatorId) (entry : Posted P),
        e.posted[id]? = some entry ∧ entry.propagator = p := by
  simp only [List.mem_iff_getElem?, getElem?_propagators, Option.map_eq_some_iff]

theorem propagators_congr {e f : Engine P} (h : f.posted = e.posted) :
    f.propagators = e.propagators := by
  unfold propagators
  rw [h]

theorem size_eq_of_propagators {e f : Engine P} (h : f.propagators = e.propagators) :
    f.posted.size = e.posted.size := by
  have hlength := congrArg List.length h
  simpa [propagators] using hlength

theorem posted_retire {e : Engine P} {id : PropagatorId} {entry : Posted P}
    (hentry : e.posted[id]? = some entry) (other : PropagatorId) :
    (e.retire id entry).posted[other]? =
      if other = id then some { entry with isRetired := true } else e.posted[other]? := by
  have hlt : id < e.posted.size := (Array.getElem?_eq_some_iff.mp hentry).1
  unfold retire
  simp only [Array.getElem?_setIfInBounds]
  by_cases hother : other = id
  · subst hother
    simp [hlt]
  · simp [hother, Ne.symm hother]

theorem propagators_retire {e : Engine P} {id : PropagatorId} {entry : Posted P}
    (hentry : e.posted[id]? = some entry) :
    (e.retire id entry).propagators = e.propagators := by
  apply List.ext_getElem?
  intro other
  rw [getElem?_propagators, getElem?_propagators, posted_retire hentry]
  by_cases hother : other = id
  · subst hother
    rw [if_pos rfl, hentry]
    rfl
  · rw [if_neg hother]

/-- The parts of the engine fit together. -/
structure WellFormed [Propagator P] (e : Engine P) : Prop where
  agenda : e.agenda.Consistent
  queued : e.agenda.queued.size = e.posted.size
  watched : ∀ id entry, e.posted[id]? = some entry →
    ∀ x ∈ Propagator.watched entry.propagator, id ∈ e.watches.watchers x
  watchers : ∀ x, ∀ id ∈ e.watches.watchers x, id < e.posted.size

/-- Between the two engines some propagators were entered in the agenda. -/
structure Wakes [Propagator P] (e f : Engine P) : Prop where
  posted : f.posted = e.posted
  watches : f.watches = e.watches
  waiting : ∀ id ∈ e.agenda.waiting, id ∈ f.agenda.waiting
  wellFormed : f.WellFormed

variable [Propagator P] {e f g : Engine P} {origin : Option PropagatorId}

theorem propagators_add (e : Engine P) (p : P) :
    (e.add p).2.propagators = e.propagators ++ [p] := by
  unfold Engine.propagators Engine.add
  simp

theorem posted_add (e : Engine P) (p : P) (id : PropagatorId) :
    (e.add p).2.posted[id]? = if id = e.posted.size then some ⟨p, false⟩ else e.posted[id]? := by
  unfold Engine.add
  simp only [Array.getElem?_push]

theorem watchers_add (e : Engine P) (p : P) (x : Var) (id : PropagatorId) :
    id ∈ (e.add p).2.watches.watchers x ↔
      id ∈ e.watches.watchers x ∨ (x ∈ Propagator.watched p ∧ id = e.posted.size) :=
  Watches.mem_watchers_addAll

theorem WellFormed.mem_waiting_add (he : e.WellFormed) (p : P) (id : PropagatorId) :
    id ∈ (e.add p).2.agenda.waiting ↔ id ∈ e.agenda.waiting ∨ id = e.posted.size :=
  he.agenda.grow.mem_waiting_insert

theorem WellFormed.add (he : e.WellFormed) (p : P) : (e.add p).2.WellFormed where
  agenda := by
    have hroom : e.posted.size < e.agenda.grow.queued.size := by
      unfold Agenda.grow
      rw [Array.size_push, he.queued]
      exact Nat.lt_succ_self _
    exact he.agenda.grow.insert hroom
  queued := by
    have hqueued := he.queued
    unfold Engine.add Agenda.grow
    simp [hqueued]
  watched id entry hentry x hx := by
    rw [watchers_add]
    rw [posted_add] at hentry
    split at hentry
    · rename_i hid
      rw [Option.some.injEq] at hentry
      subst hentry
      exact Or.inr ⟨hx, hid⟩
    · exact Or.inl (he.watched id entry hentry x hx)
  watchers x id hid := by
    have hsize : (e.add p).2.posted.size = e.posted.size + 1 := by
      unfold Engine.add
      simp
    rw [hsize]
    rcases (watchers_add e p x id).mp hid with hold | ⟨-, rfl⟩
    · exact Nat.lt_succ_of_lt (he.watchers x id hold)
    · exact Nat.lt_succ_self _

/-- Only propagators that were posted wait. -/
theorem WellFormed.lt_of_waiting (he : e.WellFormed) {id : PropagatorId}
    (hid : id ∈ e.agenda.waiting) : id < e.posted.size :=
  he.queued ▸ he.agenda.lt_size hid

theorem WellFormed.lt_of_next (he : e.WellFormed) {id : PropagatorId} {b : Agenda}
    (hnext : e.agenda.next = (some id, b)) : id < e.posted.size := by
  apply he.lt_of_waiting
  rw [(Agenda.waiting_of_next hnext).1]
  exact List.mem_cons_self

/-- The engine once the propagator that waited longest has left its agenda. -/
theorem WellFormed.afterNext (he : e.WellFormed) {id : PropagatorId} {b : Agenda}
    (hnext : e.agenda.next = (some id, b)) (runs : Nat) :
    ({ e with agenda := b, runs := runs } : Engine P).WellFormed where
  agenda := (he.agenda.next hnext).1
  queued := by
    rw [(Agenda.waiting_of_next hnext).2, Array.size_setIfInBounds]
    exact he.queued
  watched := he.watched
  watchers := he.watchers

theorem WellFormed.retire (he : e.WellFormed) {id : PropagatorId} {entry : Posted P}
    (hentry : e.posted[id]? = some entry) : (e.retire id entry).WellFormed where
  agenda := he.agenda
  queued := by
    have hqueued := he.queued
    unfold Engine.retire
    simpa using hqueued
  watched other entry' hother x hx := by
    rw [posted_retire hentry] at hother
    split at hother
    · rename_i heq
      subst heq
      simp only [Option.some.injEq] at hother
      subst hother
      exact he.watched other entry hentry x hx
    · exact he.watched other entry' hother x hx
  watchers x other hother := by
    have hlt := he.watchers x other hother
    unfold Engine.retire
    simpa using hlt

theorem WellFormed.clearAgenda (he : e.WellFormed) : e.clearAgenda.WellFormed where
  agenda := e.agenda.consistent_clear
  queued := by
    have hqueued := he.queued
    unfold Engine.clearAgenda Agenda.clear
    simpa using hqueued
  watched := he.watched
  watchers := he.watchers

theorem WellFormed.wakes (he : e.WellFormed) : e.Wakes e where
  posted := rfl
  watches := rfl
  waiting _ hid := hid
  wellFormed := he

theorem Wakes.trans (hef : e.Wakes f) (hfg : f.Wakes g) : e.Wakes g where
  posted := hfg.posted.trans hef.posted
  watches := hfg.watches.trans hef.watches
  waiting id hid := hfg.waiting id (hef.waiting id hid)
  wellFormed := hfg.wellFormed

theorem WellFormed.wakes_insert (he : e.WellFormed) {id : PropagatorId}
    (hid : id < e.posted.size) : e.Wakes { e with agenda := e.agenda.insert id } where
  posted := rfl
  watches := rfl
  waiting _ hother := he.agenda.mem_waiting_insert.mpr (Or.inl hother)
  wellFormed :=
    { agenda := he.agenda.insert (he.queued ▸ hid)
      queued := by simpa using he.queued
      watched := he.watched
      watchers := he.watchers }

theorem WellFormed.wakeAll_eq_ok (origin : Option PropagatorId) {ids : List PropagatorId}
    (he : e.WellFormed) (hids : ∀ id ∈ ids, id < e.posted.size) :
    ∃ f, e.wakeAll origin ids = .ok f ∧ e.Wakes f ∧
      ∀ id ∈ ids, some id ≠ origin → e.isRetired id = false → id ∈ f.agenda.waiting := by
  induction ids generalizing e with
  | nil => exact ⟨e, rfl, he.wakes, by simp⟩
  | cons id rest ih =>
      have hlt := hids id List.mem_cons_self
      have hrest : ∀ other ∈ rest, other < e.posted.size :=
        fun other hother => hids other (List.mem_cons_of_mem _ hother)
      unfold wakeAll
      by_cases horigin : some id = origin
      · obtain ⟨f, hf, hwakes, hwaiting⟩ := ih he hrest
        rw [if_pos horigin]
        refine ⟨f, hf, hwakes, ?_⟩
        intro other hother hne
        rcases List.mem_cons.mp hother with rfl | hother
        · exact absurd horigin hne
        · exact hwaiting other hother hne
      · rw [if_neg horigin, Table.fetch_of_lt hlt]
        have hretired : e.isRetired id = e.posted[id].isRetired := by
          unfold isRetired
          rw [Array.getElem?_eq_getElem hlt]
        dsimp only
        by_cases hentry : e.posted[id].isRetired = true
        · obtain ⟨f, hf, hwakes, hwaiting⟩ := ih he hrest
          rw [if_pos hentry]
          refine ⟨f, hf, hwakes, ?_⟩
          intro other hother hne hactive
          rcases List.mem_cons.mp hother with rfl | hother
          · rw [hretired, hentry] at hactive
            contradiction
          · exact hwaiting other hother hne hactive
        · have hinsert := he.wakes_insert hlt
          obtain ⟨f, hf, hwakes, hwaiting⟩ := ih hinsert.wellFormed hrest
          rw [if_neg hentry]
          refine ⟨f, hf, hinsert.trans hwakes, ?_⟩
          intro other hother hne hactive
          rcases List.mem_cons.mp hother with rfl | hother
          · apply hwakes.waiting
            exact he.agenda.mem_waiting_insert.mpr (Or.inr rfl)
          · exact hwaiting other hother hne hactive

theorem WellFormed.wake_eq_ok (origin : Option PropagatorId) (xs : List Var)
    (he : e.WellFormed) :
    ∃ f, e.wake origin xs = .ok f ∧ e.Wakes f ∧
      ∀ x ∈ xs, ∀ id ∈ e.watches.watchers x, some id ≠ origin → e.isRetired id = false →
        id ∈ f.agenda.waiting := by
  induction xs generalizing e with
  | nil => exact ⟨e, rfl, he.wakes, by simp⟩
  | cons x rest ih =>
      obtain ⟨f, hf, hef, hfirst⟩ := he.wakeAll_eq_ok origin (he.watchers x)
      obtain ⟨g, hg, hfg, hlater⟩ := ih hef.wellFormed
      refine ⟨g, ?_, hef.trans hfg, ?_⟩
      · unfold wake
        rw [hf]
        exact hg
      · intro y hy id hid hne hactive
        rcases List.mem_cons.mp hy with rfl | hy
        · exact hfg.waiting id (hfirst id hid hne hactive)
        · have hretired : f.isRetired id = e.isRetired id := by
            unfold isRetired
            rw [hef.posted]
          rw [← hef.watches] at hid
          exact hlater y hy id hid hne (hretired.trans hactive)

end Engine

end FiniteDomain
