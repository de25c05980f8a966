import FiniteDomain.Proofs.Bookkeeping

/-!
# The loop of an engine

An engine runs one of the propagators that wait in each round, until none is left.  What a round can do is
said here once, for all stores and for engines whose records are in any state: it rests, passes over a
retired propagator, fails, runs one and wakes others, or breaks off.  What a run of the engine does is
then shown round by round.

The definition of the loop bounds the rounds.  They are also followed without a bound, which is how the
loop goes that is not given too little fuel.
-/

namespace FiniteDomain

namespace Store

/-- The store without its record of changes. -/
def drained (s : Store) : Store :=
  s.drain.2

@[simp] theorem failure_drained (s : Store) : s.drained.failure = s.failure := rfl

@[simp] theorem changes_drained (s : Store) : s.drained.changes = #[] := rfl

end Store

/-- What a round comes to: another round, or the end. -/
inductive Round (P : Type)
  | goesOn (e : Engine P) (s : Store) (events : List Event)
  | ends (outcome : Except Crash (Propagation P))

namespace Round

variable {P : Type}

/-- The outcome, if another round is to be followed by the given ones. -/
def followedBy (rest : Engine P → Store → List Event → Except Crash (Propagation P)) :
    Round P → Except Crash (Propagation P)
  | goesOn e s events => rest e s events
  | ends outcome => outcome

end Round

namespace Engine

variable {P : Type}

/-- The end of a round: the recorded changes wake those who watch the variables. -/
def distribute (origin : Option PropagatorId) (e : Engine P) (s : Store) (events : List Event) :
    Round P :=
  match e.wake origin s.changes.toList with
  | .error f => .ends (.error ⟨f, events.reverse⟩)
  | .ok e => .goesOn e s.drained events

/-- One round, in which the propagator runs that has waited longest. -/
def round [Propagator P] (e : Engine P) (s : Store) (events : List Event) : Round P :=
  match e.agenda.next with
  | (none, agenda) =>
    if s.hasChanges then
      .ends (.error ⟨.assertion, events.reverse⟩)
    else
      .ends (.ok ⟨{ e with agenda }, s, none, events.reverse⟩)
  | (some id, agenda) =>
    let e := { e with agenda }
    match e.posted.fetch id with
    | .error f => .ends (.error ⟨f, events.reverse⟩)
    | .ok entry =>
      if entry.isRetired then
        .goesOn e s events
      else
        let p := entry.propagator
        let e := { e with runs := e.runs + 1 }
        match (Propagator.propagate p).apply s with
        | .error f => .ends (.error ⟨f, events.reverse⟩)
        | .ok (.error w, s) =>
          let events := .pruningFailed (Propagator.name p) w :: events
          .ends (.ok ⟨e.clearAgenda, s, some w, events.reverse⟩)
        | .ok (.ok .stable, s) =>
          e.distribute (if Propagator.idempotent p then some id else none) s events
        | .ok (.ok .entailed, s) =>
          (e.retire id entry).distribute (some id) s (.retired (Propagator.name p) id :: events)

theorem settle_succ [Propagator P] (fuel : Nat) (e : Engine P) (s : Store) (events : List Event) :
    settle (fuel + 1) e s events = (e.round s events).followedBy (settle fuel) := by
  unfold settle round distribute
  rcases e.agenda.next with ⟨⟨⟩ | id, agenda⟩
  · dsimp only
    cases s.hasChanges <;> rfl
  · dsimp only
    rcases e.posted.fetch id with f | entry
    · rfl
    · cases hretired : entry.isRetired with
      | true => simp only [hretired, if_true, Round.followedBy]
      | false =>
          simp only [hretired, Bool.false_eq_true, if_false]
          rcases (Propagator.propagate entry.propagator).apply s with f | ⟨w | verdict, t⟩
          · rfl
          · rfl
          · cases verdict with
            | stable =>
                dsimp only [Store.drain]
                rcases wake _ _ _ with f | g <;> rfl
            | entailed =>
                dsimp only [Store.drain]
                rcases wake _ _ _ with f | g <;> rfl

variable {e f : Engine P} {r : Propagation P}

/-- What an engine leaves when it stops: nobody waits any more. -/
structure Leaves (e : Engine P) (r : Propagation P) : Prop where
  moves : Relation.ReflTransGen Moves e r.engine
  idle : r.engine.agenda.waiting = []

theorem Leaves.head (h : f.Leaves r) (hmoves : Relation.ReflTransGen Moves e f) : e.Leaves r :=
  ⟨hmoves.trans h.moves, h.idle⟩

variable [Propagator P] {s t : Store} {events events' : List Event} {n : Nat}
  {outcome : Except Crash (Propagation P)}

/-! ## What a round does -/

/-- Everything that a round can do. -/
inductive Acts (e : Engine P) (s : Store) (events : List Event) : Round P → Prop
  | rests (hidle : e.agenda.waiting = []) :
      Acts e s events (.ends (.ok ⟨e, s, none, events.reverse⟩))
  /-- A retired propagator that still waited is passed over. -/
  | skips {id : PropagatorId} {b : Agenda} (hnext : e.agenda.next = (some id, b)) :
      Acts e s events (.goesOn { e with agenda := b } s events)
  | fails {p : P} {id : PropagatorId} {b : Agenda} {w : Wipeout} {t : Store} {events' : List Event}
      (hp : p ∈ e.propagators) (happly : (Propagator.propagate p).apply s = .ok (.error w, t))
      (hnext : e.agenda.next = (some id, b)) :
      Acts e s events
        (.ends (.ok ⟨({ e with agenda := b, runs := e.runs + 1 } : Engine P).clearAgenda, t, some w,
          events'⟩))
  /-- The engine `g` has taken note of the verdict, and wakes those who watch a change. -/
  | runs {p : P} {id : PropagatorId} {b : Agenda} {verdict : Verdict} {t : Store} {f g : Engine P}
      {origin : Option PropagatorId} {events' : List Event} (hp : p ∈ e.propagators)
      (happly : (Propagator.propagate p).apply s = .ok (.ok verdict, t))
      (hnext : e.agenda.next = (some id, b)) (hmove : e.Moves g) (hagenda : g.agenda = b)
      (hwake : g.wake origin t.changes.toList = .ok f) :
      Acts e s events (.goesOn f t.drained events')
  | crashes {p : P} {c : Crash} (hp : p ∈ e.propagators)
      (happly : (Propagator.propagate p).apply s = .error c.fault) :
      Acts e s events (.ends (.error c))
  /-- Nobody waits, but a change was left over. -/
  | neglects {c : Crash} (hfault : c.fault = .assertion) (hchanges : s.hasChanges = true) :
      Acts e s events (.ends (.error c))
  /-- Whoever waited longest was not posted. -/
  | misses {id : PropagatorId} {b : Agenda} {c : Crash} (hnext : e.agenda.next = (some id, b))
      (hfetch : e.posted.fetch id = .error c.fault) : Acts e s events (.ends (.error c))
  /-- Someone who watches a change was not posted. -/
  | loses {xs : List Var} {g : Engine P} {origin : Option PropagatorId} {c : Crash}
      (hmove : e.Moves g) (hwake : g.wake origin xs = .error c.fault) :
      Acts e s events (.ends (.error c))

theorem acts_distribute {p : P} {id : PropagatorId} {b : Agenda} {verdict : Verdict} {g : Engine P}
    {origin : Option PropagatorId} (hp : p ∈ e.propagators)
    (happly : (Propagator.propagate p).apply s = .ok (.ok verdict, t))
    (hnext : e.agenda.next = (some id, b)) (hmove : e.Moves g) (hagenda : g.agenda = b)
    (events' : List Event) : e.Acts s events (g.distribute origin t events') := by
  unfold distribute
  split
  · rename_i f hwake
    exact .loses hmove hwake
  · rename_i f hwake
    exact .runs hp happly hnext hmove hagenda hwake

theorem acts_round (e : Engine P) (s : Store) (events : List Event) :
    e.Acts s events (e.round s events) := by
  unfold round
  split
  · rename_i b hnext
    obtain ⟨hidle, rfl⟩ := Agenda.next_eq_none_iff.mp hnext
    split
    · rename_i hchanges
      exact .neglects rfl hchanges
    · exact .rests hidle
  · rename_i id b hnext
    dsimp only
    split
    · rename_i f hfetch
      exact .misses hnext hfetch
    · rename_i entry hfetch
      have hentry := Table.fetch_eq_ok_iff.mp hfetch
      have hp := mem_propagators.mpr ⟨id, entry, hentry, rfl⟩
      split
      · exact .skips hnext
      · split
        · rename_i f happly
          exact .crashes hp happly
        · rename_i w t happly
          exact .fails hp happly hnext
        · rename_i t happly
          exact acts_distribute hp happly hnext (.take hnext (e.runs + 1)) rfl events
        · rename_i t happly
          exact acts_distribute hp happly hnext (.retire hnext hentry (e.runs + 1)) rfl _

theorem acts_of_round {round : Round P} (h : e.round s events = round) : e.Acts s events round :=
  h ▸ e.acts_round s events

theorem moves_of_round (h : e.round s events = .goesOn f t events') :
    Relation.ReflTransGen Moves e f := by
  cases acts_of_round h with
  | skips hnext => exact .single (.take hnext e.runs)
  | runs _ _ _ hmove _ hwake => exact .head hmove (.single (.wake hwake))

theorem drained_of_round (hs : s.changes = #[]) (h : e.round s events = .goesOn f t events') :
    t.changes = #[] := by
  cases acts_of_round h with
  | skips _ => exact hs
  | runs _ _ _ _ _ _ => rfl

theorem leaves_of_round (h : e.round s events = .ends (.ok r)) : e.Leaves r := by
  cases acts_of_round h with
  | rests hidle => exact ⟨.refl, hidle⟩
  | fails _ _ hnext => exact ⟨.head (.take hnext (e.runs + 1)) (.single .clear), rfl⟩

/-! ## The rounds without a bound -/

/-- How the rounds end, and how many there are, without a bound on them. -/
inductive EndsIn : Nat → Engine P → Store → List Event → Except Crash (Propagation P) → Prop
  | last {e : Engine P} {s : Store} {events : List Event} {outcome : Except Crash (Propagation P)}
      (h : e.round s events = .ends outcome) : EndsIn 1 e s events outcome
  | more {e f : Engine P} {s t : Store} {events events' : List Event} {n : Nat}
      {outcome : Except Crash (Propagation P)} (h : e.round s events = .goesOn f t events')
      (hrest : EndsIn n f t events' outcome) : EndsIn (n + 1) e s events outcome

/-- With enough fuel, the loop goes through these rounds. -/
theorem EndsIn.settle_eq (h : EndsIn n e s events outcome) {fuel : Nat} (hfuel : n ≤ fuel) :
    settle fuel e s events = outcome := by
  induction h generalizing fuel with
  | last hround =>
      obtain ⟨fuel, rfl⟩ := Nat.exists_eq_add_of_le' hfuel
      rw [settle_succ, hround]
      rfl
  | more hround _ ih =>
      obtain ⟨fuel, rfl⟩ := Nat.exists_eq_add_of_le' (Nat.le_of_add_left_le hfuel)
      rw [settle_succ, hround]
      exact ih (Nat.le_of_add_le_add_right hfuel)

/-- The loop has gone through rounds whenever it returns. -/
theorem exists_endsIn_of_settle {fuel : Nat} (h : settle fuel e s events = .ok r) :
    ∃ n, EndsIn n e s events (.ok r) := by
  induction fuel generalizing e s events with
  | zero => contradiction
  | succ fuel ih =>
      rw [settle_succ] at h
      cases hround : e.round s events with
      | ends outcome =>
          rw [hround] at h
          dsimp only [Round.followedBy] at h
          rw [h] at hround
          exact ⟨1, .last hround⟩
      | goesOn f t events' =>
          rw [hround] at h
          obtain ⟨n, hrest⟩ := ih h
          exact ⟨n + 1, .more hround hrest⟩

theorem EndsIn.leaves (h : EndsIn n e s events outcome) (hr : outcome = .ok r) : e.Leaves r := by
  induction h with
  | last hround => exact leaves_of_round (hr ▸ hround)
  | more hround _ ih => exact (ih hr).head (moves_of_round hround)

/-- How propagation ends, without a bound on the rounds. -/
inductive Propagates (e : Engine P) (s : Store) : Except Crash (Propagation P) → Prop
  | refused {w : Wipeout} (h : s.failure = some w) :
      Propagates e s (.ok ⟨e.clearAgenda, s, some w, []⟩)
  | lost {f : Fault} (h : s.failure = none) (hwake : e.wake none s.changes.toList = .error f) :
      Propagates e s (.error ⟨f, []⟩)
  | settled {f : Engine P} {n : Nat} {outcome : Except Crash (Propagation P)}
      (h : s.failure = none) (hwake : e.wake none s.changes.toList = .ok f)
      (hrounds : EndsIn n f s.drained [] outcome) : Propagates e s outcome

theorem propagates_of_propagate (h : e.propagate s = .ok r) : e.Propagates s (.ok r) := by
  unfold propagate at h
  cases hs : s.failure with
  | some w =>
      rw [hs] at h
      rw [← Except.ok.inj h]
      exact .refused hs
  | none =>
      rw [hs] at h
      dsimp only [Store.drain] at h
      split at h
      · contradiction
      · rename_i f hwake
        obtain ⟨n, hrounds⟩ := exists_endsIn_of_settle h
        exact .settled hs hwake hrounds

/-- A propagation that returns is a sequence of moves, after which nobody waits. -/
theorem Propagates.leaves (h : e.Propagates s (.ok r)) : e.Leaves r := by
  cases h with
  | refused _ => exact ⟨.single .clear, rfl⟩
  | settled _ hwake hrounds => exact (hrounds.leaves rfl).head (.single (.wake hwake))

theorem propagate_leaves (h : e.propagate s = .ok r) : e.Leaves r :=
  (propagates_of_propagate h).leaves

end Engine

end FiniteDomain
