import FiniteDomain.Proofs.Waking
import Mathlib.Logic.Relation

/-!
# Bookkeeping of an engine

What an engine does to its own records while it runs, whatever its propagators do to the store.  It
takes the propagator that has waited longest off the agenda, retires it perhaps, and wakes the
watchers of what was changed; in the end the agenda may be cleared.  A run of the engine is a
sequence of such moves, so that a property of the records is shown move by move.

One such property: no retired propagator waits.  A propagator is retired when it has just left the
agenda, and afterwards nobody enters it again.
-/

namespace FiniteDomain

namespace Engine

variable {P : Type} {e f : Engine P} {id : PropagatorId} {entry : Posted P} {b : Agenda} {s : Store}

theorem isRetired_congr (h : f.posted = e.posted) (id : PropagatorId) :
    f.isRetired id = e.isRetired id := by
  unfold isRetired
  rw [h]

theorem isRetired_retire (hentry : e.posted[id]? = some entry) (other : PropagatorId) :
    (e.retire id entry).isRetired other = if other = id then true else e.isRetired other := by
  unfold isRetired
  rw [posted_retire hentry]
  by_cases hother : other = id
  · rw [if_pos hother, if_pos hother]
  · rw [if_neg hother, if_neg hother]

theorem wakeAll_frame {origin : Option PropagatorId} {ids : List PropagatorId}
    (h : e.wakeAll origin ids = .ok f) : f = { e with agenda := f.agenda } := by
  induction ids generalizing e with
  | nil =>
      rw [← Except.ok.inj h]
  | cons id rest ih =>
      unfold wakeAll at h
      split at h
      · exact ih h
      · split at h
        · contradiction
        · split at h
          · exact ih h
          · have hrest := ih h
            exact hrest

/-- Waking enters propagators in the agenda, and does nothing else. -/
theorem wake_frame {origin : Option PropagatorId} {xs : List Var}
    (h : e.wake origin xs = .ok f) : f = { e with agenda := f.agenda } := by
  induction xs generalizing e with
  | nil =>
      rw [← Except.ok.inj h]
  | cons x rest ih =>
      unfold wake at h
      split at h
      · contradiction
      · rename_i g hwakeAll
        have hrest := ih h
        rw [wakeAll_frame hwakeAll] at hrest
        exact hrest

theorem posted_of_wake {origin : Option PropagatorId} {xs : List Var}
    (h : e.wake origin xs = .ok f) : f.posted = e.posted := by
  rw [wake_frame h]

/-- One move of an engine on its records. -/
inductive Moves (e : Engine P) : Engine P → Prop
  | take {id : PropagatorId} {b : Agenda} (hnext : e.agenda.next = (some id, b)) (runs : Nat) :
      Moves e { e with agenda := b, runs := runs }
  | retire {id : PropagatorId} {b : Agenda} {entry : Posted P}
      (hnext : e.agenda.next = (some id, b)) (hentry : e.posted[id]? = some entry) (runs : Nat) :
      Moves e (({ e with agenda := b, runs := runs } : Engine P).retire id entry)
  | wake {origin : Option PropagatorId} {xs : List Var} {f : Engine P}
      (h : e.wake origin xs = .ok f) : Moves e f
  | clear : Moves e e.clearAgenda

/-- Whoever is retired stays retired. -/
theorem Moves.isRetired (h : Moves e f) (hid : e.isRetired id = true) : f.isRetired id = true := by
  cases h with
  | take hnext runs => exact hid
  | @retire taken b entry hnext hentry runs =>
      rw [isRetired_retire (e := { e with agenda := b, runs := runs }) hentry]
      split
      · rfl
      · exact hid
  | wake h => exact (isRetired_congr (posted_of_wake h) id).trans hid
  | clear => exact hid

/-- The propagators and the lists of those who watch are never moved. -/
theorem Moves.frame (h : Moves e f) : f.propagators = e.propagators ∧ f.watches = e.watches := by
  cases h with
  | take hnext runs => exact ⟨rfl, rfl⟩
  | @retire taken b entry hnext hentry runs =>
      exact ⟨propagators_retire (e := { e with agenda := b, runs := runs }) hentry, rfl⟩
  | wake h =>
      rw [wake_frame h]
      exact ⟨rfl, rfl⟩
  | clear => exact ⟨rfl, rfl⟩

theorem propagators_of_moves (h : Relation.ReflTransGen Moves e f) :
    f.propagators = e.propagators := by
  induction h with
  | refl => rfl
  | tail _ hmove ih => exact hmove.frame.1.trans ih

theorem isRetired_of_moves (h : Relation.ReflTransGen Moves e f) (hid : e.isRetired id = true) :
    f.isRetired id = true := by
  induction h with
  | refl => exact hid
  | tail _ hmove ih => exact hmove.isRetired ih

variable [Propagator P]

/-- The parts of the engine fit together, and no retired propagator waits. -/
structure Tidy (e : Engine P) : Prop where
  wellFormed : e.WellFormed
  awake : ∀ id ∈ e.agenda.waiting, e.isRetired id = false

theorem Tidy.posted_of_waiting (he : e.Tidy) (hid : id ∈ e.agenda.waiting) :
    ∃ p, e.posted[id]? = some ⟨p, false⟩ := by
  have hlt := he.wellFormed.lt_of_waiting hid
  have hentry := Array.getElem?_eq_getElem hlt
  have hawake := he.awake id hid
  unfold isRetired at hawake
  rw [hentry] at hawake
  exact ⟨e.posted[id].propagator, by rw [hentry, ← hawake]⟩

theorem isRetired_add (e : Engine P) (p : P) (id : PropagatorId) :
    (e.add p).2.isRetired id = e.isRetired id := by
  unfold isRetired
  rw [posted_add]
  by_cases hid : id = e.posted.size
  · rw [if_pos hid, hid, Array.getElem?_eq_none le_rfl]
  · rw [if_neg hid]

theorem tidy_empty : (Engine.empty : Engine P).Tidy where
  wellFormed :=
    { agenda := Agenda.consistent_empty
      queued := rfl
      watched := fun _ _ hentry => by simp [Engine.empty] at hentry
      watchers := fun x id hid => by simp [Engine.empty] at hid }
  awake id hid := by simp [Engine.empty] at hid

theorem Tidy.add (he : e.Tidy) (p : P) : (e.add p).2.Tidy where
  wellFormed := he.wellFormed.add p
  awake id hid := by
    rw [isRetired_add]
    rcases (he.wellFormed.mem_waiting_add p id).mp hid with hold | hnew
    · exact he.awake id hold
    · unfold isRetired
      rw [hnew, Array.getElem?_eq_none le_rfl]

theorem Tidy.insert (he : e.Tidy) (hlt : id < e.posted.size) (hid : e.isRetired id = false) :
    ({ e with agenda := e.agenda.insert id } : Engine P).Tidy where
  wellFormed := (he.wellFormed.wakes_insert hlt).wellFormed
  awake other hother := by
    rcases he.wellFormed.agenda.mem_waiting_insert.mp hother with hold | hnew
    · exact he.awake other hold
    · rw [hnew]
      exact hid

theorem Tidy.afterWakeAll {origin : Option PropagatorId} {ids : List PropagatorId} (he : e.Tidy)
    (h : e.wakeAll origin ids = .ok f) : f.Tidy := by
  induction ids generalizing e with
  | nil =>
      rw [← Except.ok.inj h]
      exact he
  | cons id rest ih =>
      unfold wakeAll at h
      split at h
      · exact ih he h
      · split at h
        · contradiction
        · rename_i entry hfetch
          have hentry := Table.fetch_eq_ok_iff.mp hfetch
          have hlt := (Array.getElem?_eq_some_iff.mp hentry).1
          split at h
          · exact ih he h
          · rename_i hactive
            have hid : e.isRetired id = false := by
              unfold isRetired
              rw [hentry]
              exact Bool.eq_false_iff.mpr hactive
            exact ih (he.insert hlt hid) h

theorem Tidy.afterWake {origin : Option PropagatorId} {xs : List Var} (he : e.Tidy)
    (h : e.wake origin xs = .ok f) : f.Tidy := by
  induction xs generalizing e with
  | nil =>
      rw [← Except.ok.inj h]
      exact he
  | cons x rest ih =>
      unfold wake at h
      split at h
      · contradiction
      · rename_i g hwakeAll
        exact ih (he.afterWakeAll hwakeAll) h

theorem Tidy.afterMove (he : e.Tidy) (h : Moves e f) : f.Tidy := by
  cases h with
  | take hnext runs =>
      have hwaiting := (Agenda.waiting_of_next hnext).1
      refine ⟨he.wellFormed.afterNext hnext runs, ?_⟩
      intro other hother
      apply he.awake other
      rw [hwaiting]
      exact List.mem_cons_of_mem _ hother
  | @retire id b entry hnext hentry runs =>
      have hwaiting := (Agenda.waiting_of_next hnext).1
      have htaken := he.wellFormed.afterNext hnext runs
      refine ⟨htaken.retire hentry, ?_⟩
      intro other hother
      -- whoever still waits is not the one that has just left the agenda
      have hne : other ≠ id := fun heq =>
        (he.wellFormed.agenda.next hnext).2 (heq ▸ hother)
      rw [isRetired_retire (e := { e with agenda := b, runs := runs }) hentry, if_neg hne]
      apply he.awake other
      rw [hwaiting]
      exact List.mem_cons_of_mem _ hother
  | wake h => exact he.afterWake h
  | clear =>
      refine ⟨he.wellFormed.clearAgenda, ?_⟩
      intro other hother
      simp [clearAgenda] at hother

theorem Tidy.afterMoves (he : e.Tidy) (h : Relation.ReflTransGen Moves e f) : f.Tidy := by
  induction h with
  | refl => exact he
  | tail _ hmove ih => exact ih.afterMove hmove

/-- A retired propagator is not entered in the agenda, whatever has changed. -/
theorem Tidy.not_mem_of_wake {origin : Option PropagatorId} {xs : List Var} (he : e.Tidy)
    (hid : e.isRetired id = true) (h : e.wake origin xs = .ok f) : id ∉ f.agenda.waiting := by
  intro hmem
  have hawake := (he.afterWake h).awake id hmem
  rw [isRetired_congr (posted_of_wake h), hid] at hawake
  contradiction

end Engine

end FiniteDomain
