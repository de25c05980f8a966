import FiniteDomain.Proofs.Halting

/-!
# Number of rounds

An engine runs the propagators that wait, one in each round, until none is left.  The queue may grow in a
round, and a propagator may enter itself again.  But propagators are woken by recorded changes only, and a
run that records one has taken a value from the store.  So each round takes a value, or else it enters
nobody, and the propagator that has run is one less that waits.  Whatever the lists of watchers are, and
whatever waits at the beginning, the rounds come to an end.

That does not need the bound that the definition of the loop puts on them.  If the agenda has a flag for
each propagator, which keeps it from waiting twice, the bound never cuts the rounds short.
-/

namespace FiniteDomain

namespace Agenda

/-- How many wait, or could be entered. -/
def load (a : Agenda) : Nat :=
  a.waiting.length + a.queued.count false

/-- Whoever is entered has raised a flag. -/
theorem load_insert {a : Agenda} {id : PropagatorId} (hid : id < a.queued.size) :
    (a.insert id).load = a.load := by
  have hflag : a.queued[id]? = some a.queued[id] := Array.getElem?_eq_getElem hid
  cases hqueued : a.queued[id] with
  | true =>
      rw [hqueued] at hflag
      unfold insert
      rw [if_pos hflag]
  | false =>
      have hlower : 0 < a.queued.count false :=
        Array.count_pos_iff.mpr (hqueued ▸ Array.getElem_mem hid)
      have hraised : (a.queued.setIfInBounds id true).count false + 1 = a.queued.count false := by
        rw [Array.setIfInBounds_def, dif_pos hid, Array.count_set, hqueued]
        simp
        omega
      unfold insert load waiting
      rw [hflag, hqueued, if_neg (by simp), ← hraised]
      simp only [List.reverse_cons, List.length_append, List.length_singleton]
      omega

end Agenda

namespace Engine

variable {P : Type}

/-! ## What waking does to the queue -/

/-- Between the two engines some posted propagators were entered in the agenda. -/
structure Enters (e f : Engine P) : Prop where
  posted : f.posted = e.posted
  queued : f.agenda.queued.size = e.agenda.queued.size
  load : e.agenda.queued.size = e.posted.size → f.agenda.load = e.agenda.load

section Waking

variable {e f g : Engine P} {origin : Option PropagatorId}

theorem Enters.refl (e : Engine P) : e.Enters e :=
  ⟨rfl, rfl, fun _ => rfl⟩

theorem Enters.trans (hef : e.Enters f) (hfg : f.Enters g) : e.Enters g where
  posted := hfg.posted.trans hef.posted
  queued := hfg.queued.trans hef.queued
  load hflags := by
    have hflags' : f.agenda.queued.size = f.posted.size := by rw [hef.queued, hflags, hef.posted]
    exact (hfg.load hflags').trans (hef.load hflags)

theorem Enters.propagators (h : e.Enters f) : f.propagators = e.propagators :=
  propagators_congr h.posted

theorem enters_insert {id : PropagatorId} (hid : id < e.posted.size) :
    e.Enters { e with agenda := e.agenda.insert id } where
  posted := rfl
  queued := e.agenda.size_queued_insert id
  load hflags := Agenda.load_insert (hflags ▸ hid)

theorem enters_of_wakeAll {ids : List PropagatorId} (h : e.wakeAll origin ids = .ok f) :
    e.Enters f := by
  induction ids generalizing e with
  | nil =>
      obtain rfl := Except.ok.inj h
      exact .refl e
  | cons id rest ih =>
      unfold wakeAll at h
      split at h
      · exact ih h
      · split at h
        · contradiction
        · rename_i entry hfetch
          split at h
          · exact ih h
          · have hid := (Array.getElem?_eq_some_iff.mp (Table.fetch_eq_ok_iff.mp hfetch)).1
            exact (enters_insert hid).trans (ih h)

theorem enters_of_wake {xs : List Var} (h : e.wake origin xs = .ok f) : e.Enters f := by
  induction xs generalizing e with
  | nil =>
      obtain rfl := Except.ok.inj h
      exact .refl e
  | cons x rest ih =>
      unfold wake at h
      split at h
      · contradiction
      · rename_i g hfirst
        exact (enters_of_wakeAll hfirst).trans (ih h)

theorem halts_wakeAll (ids : List PropagatorId) : Halts (e.wakeAll origin ids) := by
  induction ids generalizing e with
  | nil => exact halts_ok e
  | cons id rest ih =>
      unfold wakeAll
      split
      · exact ih
      · split
        · rename_i f hfetch
          exact halts_error ((halts_fetch _ _).fault_ne hfetch)
        · split
          · exact ih
          · exact ih

theorem halts_wake (xs : List Var) : Halts (e.wake origin xs) := by
  induction xs generalizing e with
  | nil => exact halts_ok e
  | cons x rest ih =>
      unfold wake
      split
      · rename_i f hfirst
        exact halts_error ((halts_wakeAll _).fault_ne hfirst)
      · exact ih

end Waking

/-! ## The rounds -/

variable {e f : Engine P} {s t : Store} {events events' : List Event}
  {outcome : Except Crash (Propagation P)} {n : Nat}

/-- A round before the last one: a value was taken from the store, or one less waits. -/
structure Progresses (e : Engine P) (s : Store) (f : Engine P) (t : Store) : Prop where
  propagators : f.propagators = e.propagators
  queued : f.agenda.queued.size = e.agenda.queued.size
  drained : t.changes = #[]
  decreases : t.weight < s.weight ∨
    t.weight = s.weight ∧ f.agenda.waiting.length < e.agenda.waiting.length
  waiting : e.agenda.queued.size = e.posted.size →
    f.agenda.waiting.length < e.agenda.waiting.length + e.posted.size

/-- A run that has left the weight as it was has recorded nothing, so it wakes nobody. -/
theorem Progresses.afterWake {g : Engine P} {origin : Option PropagatorId} {id : PropagatorId}
    {b : Agenda} (hnext : e.agenda.next = (some id, b)) (hchanges : s.changes = #[])
    (hst : s.Narrowing t) (hpropagators : g.propagators = e.propagators) (hagenda : g.agenda = b)
    (hwake : g.wake origin t.changes.toList = .ok f) : Progresses e s f t.drained := by
  have henters := enters_of_wake hwake
  obtain ⟨hwaiting, hqueued⟩ := Agenda.waiting_of_next hnext
  have hflags : g.agenda.queued.size = e.agenda.queued.size := by
    rw [hagenda, hqueued, Array.size_setIfInBounds]
  have hsize := size_eq_of_propagators hpropagators
  have hlength : e.agenda.waiting.length = b.waiting.length + 1 := by
    rw [hwaiting, List.length_cons]
  refine ⟨?_, henters.queued.trans hflags, rfl, ?_, ?_⟩
  · exact henters.propagators.trans hpropagators
  · rcases hst.weight_lt_or_changes_eq with hlt | ⟨hsame, hrecord⟩
    · exact Or.inl hlt
    · right
      rw [hrecord, hchanges] at hwake
      obtain rfl := Except.ok.inj hwake
      refine ⟨hsame, ?_⟩
      rw [hagenda]
      omega
  · intro hequal
    have hload := henters.load (by omega)
    have hfree : g.agenda.queued.count false ≤ g.agenda.queued.size := Array.count_le_size
    unfold Agenda.load at hload
    rw [hagenda] at hload hfree hflags
    omega

/-- The fuel of the loop is less after each round, whether a value was taken or not. -/
theorem Progresses.settleFuel_lt (h : Progresses e s f t)
    (hflags : e.agenda.queued.size = e.posted.size) : f.settleFuel t < e.settleFuel s := by
  have hsize := size_eq_of_propagators h.propagators
  have hwaiting := h.waiting hflags
  unfold settleFuel
  rw [hsize]
  rcases h.decreases with hlt | ⟨hsame, hlt⟩
  · have hproduct : (t.weight + 1) * (e.posted.size + 1) ≤ s.weight * (e.posted.size + 1) :=
      Nat.mul_le_mul_right _ hlt
    rw [Nat.add_mul] at hproduct
    omega
  · rw [hsame]
    omega

variable [Propagator P]

theorem progresses_of_round (hnarrows : ∀ p ∈ e.propagators, (Propagator.propagate p).Narrows)
    (hchanges : s.changes = #[]) (h : e.round s events = .goesOn f t events') :
    Progresses e s f t := by
  cases acts_of_round h with
  | @skips id b hnext =>
      obtain ⟨hwaiting, hqueued⟩ := Agenda.waiting_of_next hnext
      have hless : b.waiting.length < e.agenda.waiting.length := by
        rw [hwaiting, List.length_cons]
        exact Nat.lt_succ_self _
      refine ⟨rfl, ?_, hchanges, Or.inr ⟨rfl, hless⟩, fun _ => Nat.lt_add_right _ hless⟩
      rw [hqueued, Array.size_setIfInBounds]
  | runs hp happly hnext hmove hagenda hwake =>
      exact .afterWake hnext hchanges (hnarrows _ hp _ _ _ happly) hmove.frame.1 hagenda hwake

/-- The values that are left come first, and then the propagators that wait, since a round that takes a
value may enter any number of them. -/
theorem exists_endsIn (e : Engine P) (s : Store) (events : List Event)
    (hnarrows : ∀ p ∈ e.propagators, (Propagator.propagate p).Narrows)
    (hchanges : s.changes = #[]) : ∃ n outcome, EndsIn n e s events outcome := by
  cases hround : e.round s events with
  | ends outcome => exact ⟨1, outcome, .last hround⟩
  | goesOn f t events' =>
      have hprogress := progresses_of_round hnarrows hchanges hround
      obtain ⟨n, outcome, hrest⟩ :=
        exists_endsIn f t events' (hprogress.propagators ▸ hnarrows) hprogress.drained
      exact ⟨n + 1, outcome, .more hround hrest⟩
termination_by (s.weight, e.agenda.waiting.length)
decreasing_by
  rcases hprogress.decreases with hlt | ⟨hsame, hlt⟩
  · exact Prod.Lex.left _ _ hlt
  · rw [hsame]
    exact Prod.Lex.right _ hlt

theorem EndsIn.le_settleFuel (h : EndsIn n e s events outcome)
    (hnarrows : ∀ p ∈ e.propagators, (Propagator.propagate p).Narrows) (hchanges : s.changes = #[])
    (hflags : e.agenda.queued.size = e.posted.size) : n ≤ e.settleFuel s := by
  induction h with
  | last _ =>
      unfold settleFuel
      omega
  | more hround _ ih =>
      have hprogress := progresses_of_round hnarrows hchanges hround
      have hsize := size_eq_of_propagators hprogress.propagators
      have hrest := ih (hprogress.propagators ▸ hnarrows) hprogress.drained
        (by rw [hprogress.queued, hflags, hsize])
      have hless := hprogress.settleFuel_lt hflags
      omega

theorem fault_ne_of_round {c : Crash} (hhalts : ∀ p ∈ e.propagators, (Propagator.propagate p).Halts)
    (h : e.round s events = .ends (.error c)) : c.fault ≠ .outOfFuel := by
  cases acts_of_round h with
  | crashes hp happly => exact (hhalts _ hp s).fault_ne happly
  | neglects hfault _ =>
      rw [hfault]
      exact Fault.noConfusion
  | misses _ hfetch => exact (halts_fetch _ _).fault_ne hfetch
  | loses _ hwake => exact (halts_wake _).fault_ne hwake

theorem EndsIn.fault_ne {c : Crash} (h : EndsIn n e s events outcome)
    (hnarrows : ∀ p ∈ e.propagators, (Propagator.propagate p).Narrows)
    (hhalts : ∀ p ∈ e.propagators, (Propagator.propagate p).Halts) (hchanges : s.changes = #[])
    (hcrash : outcome = .error c) : c.fault ≠ .outOfFuel := by
  induction h with
  | last hround =>
      rw [hcrash] at hround
      exact fault_ne_of_round hhalts hround
  | more hround _ ih =>
      have hprogress := progresses_of_round hnarrows hchanges hround
      exact ih (hprogress.propagators ▸ hnarrows) (hprogress.propagators ▸ hhalts)
        hprogress.drained hcrash

/-- Propagation ends on any store, whoever watches what and whatever waits, if the propagators do no more
to a store than narrow it, and halt themselves.  With a flag for each propagator the engine does not run
out of fuel, and ends in the same way. -/
theorem propagate_ends (hnarrows : ∀ p ∈ e.propagators, (Propagator.propagate p).Narrows)
    (hhalts : ∀ p ∈ e.propagators, (Propagator.propagate p).Halts) :
    ∃ outcome, e.Propagates s outcome ∧ (∀ c, outcome = .error c → c.fault ≠ .outOfFuel) ∧
      (e.agenda.queued.size = e.posted.size → e.propagate s = outcome) := by
  unfold propagate
  cases hs : s.failure with
  | some w => exact ⟨_, .refused hs, by simp, fun _ => rfl⟩
  | none =>
      dsimp only [Store.drain]
      cases hwake : e.wake none s.changes.toList with
      | error f =>
          refine ⟨_, .lost hs hwake, ?_, fun _ => rfl⟩
          intro c hc
          obtain rfl := Except.error.inj hc
          exact (halts_wake _).fault_ne hwake
      | ok f =>
          have henters := enters_of_wake hwake
          rw [← henters.propagators] at hnarrows hhalts
          obtain ⟨n, outcome, hends⟩ := exists_endsIn f s.drained [] hnarrows rfl
          refine ⟨outcome, .settled hs hwake hends, fun c => hends.fault_ne hnarrows hhalts rfl, ?_⟩
          intro hflags
          have hfuel := hends.le_settleFuel hnarrows rfl
            (by rw [henters.queued, hflags, henters.posted])
          exact hends.settle_eq hfuel

/-- Two propagators that stand in the queue again and again, one of which sees its own changes. -/
def crowded : Engine Constraint where
  posted := #[⟨.disequality ⟨⟨0⟩, ⟨1⟩⟩, false⟩, ⟨.precedence (.between ⟨1⟩ 1 ⟨2⟩), false⟩]
  watches := ⟨#[[0], [1, 0], [1]]⟩
  active := 2
  agenda := ⟨[1, 0, 1], [0, 0], #[true, false]⟩
  runs := 0
  retirements := 0

/-- The disequality cuts the second variable, which wakes the precedence and itself. -/
theorem propagate_ends_crowded :
    ∃ r, crowded.Propagates ⟨#[⟨0, 0⟩, ⟨0, 3⟩, ⟨0, 3⟩], #[⟨2⟩], none⟩ (.ok r) ∧
      crowded.propagate ⟨#[⟨0, 0⟩, ⟨0, 3⟩, ⟨0, 3⟩], #[⟨2⟩], none⟩ = .ok r ∧
      r.store.domains = #[⟨0, 0⟩, ⟨1, 2⟩, ⟨2, 3⟩] ∧ r.failure = none := by
  obtain ⟨outcome, hends, -, hsame⟩ :=
    propagate_ends (e := crowded) (s := ⟨#[⟨0, 0⟩, ⟨0, 3⟩, ⟨0, 3⟩], #[⟨2⟩], none⟩)
      (fun p _ => p.narrows_propagate) fun p _ => p.halts_propagate
  obtain rfl := hsame rfl
  exact ⟨_, hends, rfl, rfl, rfl⟩

end Engine

end FiniteDomain
