import FiniteDomain.Proofs.Lineage

/-!
# The accounts of an engine

An engine keeps the same facts in several places.  Who waits is told by a queue and by flags; who is
retired by the entries, by the propagators that wait, and by two counters; who watches a variable by
the propagators themselves, and by the lists.  Each of them is written at another point of the program,
when a propagator is posted, woken, run or retired, and when a failure drops those that still wait.

All of that is done by the moves of the engine, and each move keeps the accounts in order.  The only one
that a counter depends on is a retirement: it takes one from the active propagators, which is right
because nobody who waits has been retired before.  So the accounts of an engine agree after any use of
it, and a propagation that breaks off does so in a propagator.
-/

namespace FiniteDomain

namespace Engine

variable {P : Type} {e f : Engine P}

/-- The counters tell how many propagators are retired, and how many are not. -/
structure Counted (e : Engine P) : Prop where
  active : e.active = e.posted.countP fun entry => !entry.isRetired
  total : e.active + e.retirements = e.posted.size

theorem Counted.congr (he : e.Counted) (hposted : f.posted = e.posted)
    (hactive : f.active = e.active) (hretirements : f.retirements = e.retirements) :
    f.Counted where
  active := by rw [hposted, hactive, he.active]
  total := by rw [hposted, hactive, hretirements, he.total]

theorem Counted.retire {id : PropagatorId} {entry : Posted P} (he : e.Counted)
    (hentry : e.posted[id]? = some entry) (hawake : e.isRetired id = false) :
    (e.retire id entry).Counted := by
  obtain ⟨hlt, hget⟩ := Array.getElem?_eq_some_iff.mp hentry
  have hopen : entry.isRetired = false := by simpa [isRetired, hentry] using hawake
  have hpos : 0 < e.posted.countP fun entry => !entry.isRetired :=
    Array.countP_pos_iff.mpr ⟨entry, Array.mem_of_getElem? hentry, by simp [hopen]⟩
  have hactive := he.active
  have htotal := he.total
  constructor
  · simp [Engine.retire, Array.setIfInBounds, hlt, Array.countP_set, hget, hopen, hactive]
  · simp only [Engine.retire, Array.size_setIfInBounds]
    omega

variable [Propagator P] {s : Store} {events : List Event} {n : Nat} {c : Crash}
  {outcome : Except Crash (Propagation P)}

/-- The lists of watchers hold, under each variable, the propagators that watch it, once. -/
structure Listed (e : Engine P) : Prop where
  nodup : ∀ x, (e.watches.watchers x).Nodup
  mem_iff : ∀ x id, id ∈ e.watches.watchers x ↔
    ∃ p, e.propagators[id]? = some p ∧ x ∈ Propagator.watched p

/-- What is kept in several places is the same everywhere. -/
structure Balanced (e : Engine P) : Prop where
  tidy : e.Tidy
  counted : e.Counted
  listed : e.Listed

theorem balanced_empty : (Engine.empty : Engine P).Balanced where
  tidy := tidy_empty
  counted := ⟨rfl, rfl⟩
  listed := by
    constructor
    · simp [Engine.empty]
    · simp [Engine.empty, propagators]

theorem Counted.add (he : e.Counted) (p : P) : (e.add p).2.Counted := by
  have hactive := he.active
  have htotal := he.total
  constructor
  · simp [Engine.add, hactive]
  · simp only [Engine.add, Array.size_push]
    omega

theorem Listed.add (he : e.Listed) (p : P) : (e.add p).2.Listed where
  nodup x := Watches.nodup_watchers_addAll (he.nodup x)
  mem_iff x id := by
    rw [watchers_add, he.mem_iff]
    simp only [getElem?_propagators, posted_add]
    by_cases hid : id = e.posted.size
    · simp [hid]
    · simp [hid]

theorem Balanced.add (he : e.Balanced) (p : P) : (e.add p).2.Balanced where
  tidy := he.tidy.add p
  counted := he.counted.add p
  listed := he.listed.add p

theorem Counted.afterMove (he : e.Counted) (htidy : e.Tidy) (h : Moves e f) : f.Counted := by
  cases h with
  | take hnext runs => exact he.congr rfl rfl rfl
  | @retire id b entry hnext hentry runs =>
      have htaken : ({ e with agenda := b, runs := runs } : Engine P).Counted :=
        he.congr rfl rfl rfl
      -- whoever leaves the agenda has waited there, and so is not retired yet
      have hawake : e.isRetired id = false := by
        apply htidy.awake id
        simp [(Agenda.waiting_of_next hnext).1]
      exact htaken.retire hentry hawake
  | wake h =>
      rw [wake_frame h]
      exact he.congr rfl rfl rfl
  | clear => exact he.congr rfl rfl rfl

theorem Listed.afterMove (he : e.Listed) (h : Moves e f) : f.Listed := by
  obtain ⟨hpropagators, hwatches⟩ := h.frame
  constructor
  · rw [hwatches]
    exact he.nodup
  · rw [hpropagators, hwatches]
    exact he.mem_iff

theorem Balanced.afterMove (he : e.Balanced) (h : Moves e f) : f.Balanced where
  tidy := he.tidy.afterMove h
  counted := he.counted.afterMove he.tidy h
  listed := he.listed.afterMove h

theorem Balanced.afterMoves (he : e.Balanced) (h : Relation.ReflTransGen Moves e f) :
    f.Balanced := by
  induction h with
  | refl => exact he
  | tail _ hmove ih => exact ih.afterMove hmove

/-! ## Faults -/

/-- An engine whose records are in order does not break off by itself. -/
theorem crashes_of_round (he : e.Tidy) (hs : s.changes = #[])
    (h : e.round s events = .ends (.error c)) :
    ∃ p ∈ e.propagators, ∃ t, (Propagator.propagate p).apply t = .error c.fault := by
  cases acts_of_round h with
  | crashes hp happly => exact ⟨_, hp, s, happly⟩
  | neglects _ hchanges =>
      simp [Store.hasChanges, hs] at hchanges
  | misses hnext hfetch =>
      rw [Table.fetch_of_lt (he.wellFormed.lt_of_next hnext)] at hfetch
      contradiction
  | @loses xs _ origin _ hmove hwake =>
      obtain ⟨_, hok, -⟩ := (he.afterMove hmove).wellFormed.wake_eq_ok origin xs
      rw [hok] at hwake
      contradiction

theorem EndsIn.crashes (h : EndsIn n e s events outcome) (he : e.Tidy) (hs : s.changes = #[])
    (hc : outcome = .error c) :
    ∃ p ∈ e.propagators, ∃ t, (Propagator.propagate p).apply t = .error c.fault := by
  induction h with
  | last hround => exact crashes_of_round he hs (hc ▸ hround)
  | more hround _ ih =>
      have hmoves := moves_of_round hround
      rw [← propagators_of_moves hmoves]
      exact ih (he.afterMoves hmoves) (drained_of_round hs hround) hc

theorem Propagates.crashes (h : e.Propagates s (.error c)) (he : e.Tidy) :
    ∃ p ∈ e.propagators, ∃ t, (Propagator.propagate p).apply t = .error c.fault := by
  cases h with
  | lost _ hwake =>
      obtain ⟨_, hok, -⟩ := he.wellFormed.wake_eq_ok none s.changes.toList
      rw [hok] at hwake
      contradiction
  | settled _ hwake hrounds =>
      rw [← propagators_congr (posted_of_wake hwake)]
      exact hrounds.crashes (he.afterWake hwake) rfl rfl

/-! ## Engines in use -/

/-- The engines that come of posting and propagating, in any order and on any stores.  An engine may
have been copied at any time, and each copy used in its own way. -/
inductive Reached : Engine P → Prop
  | empty : Reached Engine.empty
  | add {e : Engine P} (he : Reached e) (p : P) : Reached (e.add p).2
  | propagate {e : Engine P} {s : Store} {r : Propagation P} (he : Reached e)
      (h : e.Propagates s (.ok r)) : Reached r.engine

theorem Reached.balanced (h : Reached e) : e.Balanced := by
  induction h with
  | empty => exact balanced_empty
  | add _ p ih => exact ih.add p
  | propagate _ h ih => exact ih.afterMoves h.leaves.moves

/-- However an engine was used, and whatever its propagators did to the stores, its accounts agree.  The
flags tell who waits, nobody waits twice, and those who wait are not retired; the counters tell how many
are; and the lists of watchers are those of the propagators.  Once a propagation has returned, with a
failure or not, nobody waits, and if it does not return, then because a propagator has faulted. -/
theorem records_agree (h : Reached e) :
    e.agenda.Consistent ∧
    (∀ id ∈ e.agenda.waiting, ∃ p, e.posted[id]? = some ⟨p, false⟩) ∧
    e.Counted ∧
    e.Listed ∧
    (∀ s r, e.propagate s = .ok r → e.Propagates s (.ok r)) ∧
    (∀ s r, e.Propagates s (.ok r) → r.engine.agenda.waiting = []) ∧
    ∀ s c, e.Propagates s (.error c) →
      ∃ p ∈ e.propagators, ∃ t, (Propagator.propagate p).apply t = .error c.fault := by
  obtain ⟨htidy, hcounted, hlisted⟩ := h.balanced
  refine ⟨htidy.wellFormed.agenda, ?_, hcounted, hlisted, ?_, ?_, ?_⟩
  · intro id hid
    exact htidy.posted_of_waiting hid
  · intro s r hr
    exact propagates_of_propagate hr
  · intro s r hr
    exact hr.leaves.idle
  · intro s c hc
    exact hc.crashes htidy

/-- Two precedences, the first of which has been retired. -/
def depleted : Engine Constraint where
  posted :=
    #[⟨.precedence (.between ⟨0⟩ 2 ⟨1⟩), true⟩, ⟨.precedence (.between ⟨0⟩ 2 ⟨2⟩), false⟩]
  watches := ⟨#[[0, 1], [0], [1]]⟩
  active := 1
  agenda := ⟨[], [], #[false, false]⟩
  runs := 2
  retirements := 1

theorem reached_depleted : depleted.Reached := by
  let posted : Engine Constraint :=
    ((Engine.empty.add (.precedence (.between ⟨0⟩ 2 ⟨1⟩))).2.add
      (.precedence (.between ⟨0⟩ 2 ⟨2⟩))).2
  have hposted : posted.Reached := (Reached.empty.add _).add _
  obtain ⟨r, hr, hengine⟩ : ∃ r,
      posted.propagate ⟨#[⟨0, 5⟩, ⟨10, 15⟩, ⟨0, 15⟩], #[], none⟩ = .ok r ∧ r.engine = depleted :=
    ⟨_, rfl, rfl⟩
  rw [← hengine]
  exact hposted.propagate (propagates_of_propagate hr)

/-- A third precedence is posted on the changed variable, and fails while the second one still waits. -/
theorem records_agree_depleted :
    let e := (depleted.add (.precedence (.between ⟨2⟩ 0 ⟨0⟩))).2
    e.active = 2 ∧ e.retirements = 1 ∧ e.Counted ∧
    e.agenda.waiting = [2] ∧ e.agenda.Consistent ∧
    e.watches.watchers ⟨0⟩ = [0, 1, 2] ∧ e.Listed ∧
    ∃ r, e.propagate ⟨#[⟨0, 1⟩, ⟨10, 15⟩, ⟨5, 9⟩], #[⟨0⟩], none⟩ = .ok r ∧
      r.failure = some ⟨⟨0⟩, 5, 1⟩ ∧ r.engine.runs = 3 ∧ r.engine.agenda.waiting = [] := by
  intro e
  have he : e.Reached := reached_depleted.add _
  obtain ⟨hconsistent, -, hcounted, hlisted, hpropagates, hidle, -⟩ := records_agree he
  obtain ⟨r, hr, hfailure, hruns⟩ : ∃ r,
      e.propagate ⟨#[⟨0, 1⟩, ⟨10, 15⟩, ⟨5, 9⟩], #[⟨0⟩], none⟩ = .ok r ∧
      r.failure = some ⟨⟨0⟩, 5, 1⟩ ∧ r.engine.runs = 3 :=
    ⟨_, rfl, rfl, rfl⟩
  exact ⟨rfl, rfl, hcounted, rfl, hconsistent, rfl, hlisted, r, hr, hfailure, hruns,
    hidle _ _ (hpropagates _ _ hr)⟩

end Engine

/-- The engines of all nodes that are made from an empty one are such engines. -/
theorem Node.Leads.reached {P : Type} [Propagator P] {n : Node P Strategy}
    (h : Node.empty.Leads n) : n.engine.Reached := by
  induction h with
  | refl => exact .empty
  | tail _ hrequest ih =>
      rcases hrequest.engine with ⟨p, hadd⟩ | hsame | ⟨r, hr, hrun⟩
      · rw [hadd]
        exact ih.add p
      · rw [hsame]
        exact ih
      · rw [hrun]
        exact ih.propagate (Engine.propagates_of_propagate hr)

end FiniteDomain
