import FiniteDomain.Proofs.Lineage
import FiniteDomain.Proofs.Tracing

/-!
# Retiring

A propagator is retired once, on the bounds of one store, and all nodes below inherit that.  It is
right to do so.  On the domains of any later node every assignment satisfies the constraint, for
domains only shrink; the propagator would find nothing to remove, for it never loses an assignment;
and the engine leaves it alone, so that a node behaves as if any other propagator stood in its place.
-/

namespace FiniteDomain

/-- Once its constraint is entailed, a run of a propagator changes nothing. -/
theorem Filtering.propagate_of_entailed {P : Type} [Propagator P] [Filtering P] {p : P} {s : Store}
    (hp : Filtering.Admissible p) (hs : s.Consistent) (hhas : ∀ x ∈ Propagator.watched p, s.Has x)
    (hentailed : Filtering.Entailed p s.view) :
    ∃ verdict, (Propagator.propagate p).apply s = .ok (.ok verdict, s) :=
  Filtering.propagate_of_closed hp hs hhas (Filtering.closed_of_entailed hs.view hentailed)

namespace Engine

variable {P : Type} {e f : Engine P} {id other : PropagatorId} {p : P} {entry : Posted P}

/-- The engine with another propagator in the given place. -/
def substitute (id : PropagatorId) (p : P) (e : Engine P) : Engine P :=
  { e with posted := e.posted.modify id fun entry => { entry with propagator := p } }

theorem posted_substitute (id : PropagatorId) (p : P) (e : Engine P) (other : PropagatorId) :
    (e.substitute id p).posted[other]? =
      if other = id then e.posted[other]?.map fun entry => { entry with propagator := p }
      else e.posted[other]? := by
  unfold substitute
  rw [Array.getElem?_modify]
  by_cases hother : other = id
  · rw [if_pos hother, if_pos hother.symm]
  · rw [if_neg hother, if_neg (Ne.symm hother)]

theorem size_substitute (id : PropagatorId) (p : P) (e : Engine P) :
    (e.substitute id p).posted.size = e.posted.size := by
  unfold substitute
  exact Array.size_modify

theorem fetch_substitute (id : PropagatorId) (p : P) (e : Engine P) (other : PropagatorId) :
    (e.substitute id p).posted.fetch other =
      (e.posted.fetch other).map fun entry =>
        if other = id then { entry with propagator := p } else entry := by
  unfold Table.fetch
  rw [posted_substitute, size_substitute]
  by_cases hother : other = id
  · rw [if_pos hother]
    cases e.posted[other]? with
    | none => rfl
    | some entry =>
      simp only [Option.map, Except.map, if_pos hother]
  · rw [if_neg hother]
    cases e.posted[other]? with
    | none => rfl
    | some entry =>
      simp only [Except.map, if_neg hother]

theorem retire_substitute (hne : other ≠ id) (entry : Posted P) (e : Engine P) :
    (e.substitute id p).retire other entry = (e.retire other entry).substitute id p := by
  unfold retire substitute
  simp only [Engine.mk.injEq, and_self, and_true]
  apply Array.ext_getElem?
  intro i
  simp only [Array.getElem?_setIfInBounds, Array.getElem?_modify, Array.size_modify]
  by_cases hi : id = i
  · rw [if_pos hi, if_neg (fun heq => hne (heq.trans hi.symm)),
      if_pos hi, if_neg (fun heq => hne (heq.trans hi.symm))]
  · rw [if_neg hi, if_neg hi]

theorem wakeAll_substitute (id : PropagatorId) (p : P) (origin : Option PropagatorId)
    (e : Engine P) (ids : List PropagatorId) :
    (e.substitute id p).wakeAll origin ids = (e.wakeAll origin ids).map (substitute id p) := by
  induction ids generalizing e with
  | nil => rfl
  | cons other rest ih =>
      unfold wakeAll
      by_cases horigin : some other = origin
      · rw [if_pos horigin, if_pos horigin]
        exact ih e
      · rw [if_neg horigin, if_neg horigin, fetch_substitute]
        cases e.posted.fetch other with
        | error fault => rfl
        | ok entry =>
            have hretired : (if other = id then { entry with propagator := p } else entry).isRetired =
                entry.isRetired := by
              split <;> rfl
            simp only [Except.map, hretired]
            split
            · exact ih e
            · exact ih { e with agenda := e.agenda.insert other }

theorem wake_substitute (id : PropagatorId) (p : P) (origin : Option PropagatorId)
    (e : Engine P) (xs : List Var) :
    (e.substitute id p).wake origin xs = (e.wake origin xs).map (substitute id p) := by
  induction xs generalizing e with
  | nil => rfl
  | cons x rest ih =>
      unfold wake
      have hwatches : (e.substitute id p).watches = e.watches := rfl
      rw [hwatches, wakeAll_substitute]
      cases e.wakeAll origin (e.watches.watchers x) with
      | error fault => rfl
      | ok f => exact ih f

end Engine

/-- What is left by the engine, with another propagator in the given place. -/
def Propagation.substitute {P : Type} (id : PropagatorId) (p : P) (r : Propagation P) :
    Propagation P :=
  { r with engine := r.engine.substitute id p }

/-- What a round comes to, with another propagator in the given place. -/
def Round.substitute {P : Type} (id : PropagatorId) (p : P) : Round P → Round P
  | goesOn e s events => goesOn (e.substitute id p) s events
  | ends outcome => ends (outcome.map (Propagation.substitute id p))

namespace Engine

variable {P : Type} {e : Engine P} {id : PropagatorId} {p : P}

theorem distribute_substitute (id : PropagatorId) (p : P) (origin : Option PropagatorId)
    (e : Engine P) (s : Store) (events : List Event) :
    (e.substitute id p).distribute origin s events =
      (e.distribute origin s events).substitute id p := by
  unfold distribute
  rw [wake_substitute]
  cases e.wake origin s.changes.toList with
  | error fault => rfl
  | ok f => rfl

variable [Propagator P]

/-- A round does not look at a retired propagator. -/
theorem round_substitute (hid : e.isRetired id = true) (s : Store) (events : List Event) :
    (e.substitute id p).round s events = (e.round s events).substitute id p := by
  have hagenda : (e.substitute id p).agenda = e.agenda := rfl
  unfold round
  rw [hagenda]
  obtain ⟨next, b⟩ := e.agenda.next
  cases next with
  | none => cases s.hasChanges <;> rfl
  | some other =>
      have hfetch : ({ e.substitute id p with agenda := b } : Engine P).posted.fetch other = _ :=
        fetch_substitute id p e other
      dsimp only
      rw [hfetch]
      cases hentry : e.posted.fetch other with
      | error fault => rfl
      | ok entry =>
          by_cases hother : other = id
          · -- whatever stands in the place of a retired propagator is passed over
            have hretired : entry.isRetired = true := by
              unfold isRetired at hid
              rw [← hother, Table.fetch_eq_ok_iff.mp hentry] at hid
              exact hid
            simp only [Except.map, if_pos hother, hretired, if_true]
            rfl
          · simp only [Except.map, if_neg hother]
            split
            · rfl
            · rcases (Propagator.propagate entry.propagator).apply s with fault | ⟨w | verdict, t⟩
              · rfl
              · rfl
              · cases verdict with
                | stable =>
                    exact distribute_substitute id p _ { e with agenda := b, runs := e.runs + 1 } t
                      events
                | entailed =>
                    have hretire := retire_substitute (p := p) hother entry
                      { e with agenda := b, runs := e.runs + 1 }
                    have hafter := distribute_substitute id p (some other)
                      (({ e with agenda := b, runs := e.runs + 1 } : Engine P).retire other entry) t
                      (.retired (Propagator.name entry.propagator) other :: events)
                    rw [← hretire] at hafter
                    exact hafter

theorem settle_substitute {fuel : Nat} {s : Store} {events : List Event}
    (hid : e.isRetired id = true) :
    settle fuel (e.substitute id p) s events =
      (settle fuel e s events).map (Propagation.substitute id p) := by
  induction fuel generalizing e s events with
  | zero => rfl
  | succ fuel ih =>
      rw [settle_succ, settle_succ, round_substitute hid]
      cases hround : e.round s events with
      | ends outcome => rfl
      | goesOn f t events' => exact ih (isRetired_of_moves (moves_of_round hround) hid)

theorem propagate_substitute {s : Store} (hid : e.isRetired id = true) :
    (e.substitute id p).propagate s =
      (e.propagate s).map (Propagation.substitute id p) := by
  unfold propagate
  split
  · rfl
  · dsimp only
    rw [wake_substitute]
    cases hwake : e.wake none s.drain.1 with
    | error fault => rfl
    | ok f =>
        have hfuel : (f.substitute id p).settleFuel s.drain.2 = f.settleFuel s.drain.2 := by
          unfold settleFuel
          rw [size_substitute]
          rfl
        simp only [Except.map]
        rw [hfuel]
        exact settle_substitute ((isRetired_congr (posted_of_wake hwake) id).trans hid)

end Engine

namespace Node

variable {P : Type} [Propagator P]

/-- The node with another propagator in the given place. -/
def substitute (id : PropagatorId) (p : P) (n : Node P Strategy) : Node P Strategy :=
  { n with engine := n.engine.substitute id p }

theorem propagate_substitute {n : Node P Strategy} {id : PropagatorId} (p : P)
    (hid : n.engine.isRetired id = true) :
    (n.substitute id p).propagate =
      n.propagate.map fun (failure, events, m) => (failure, events, m.substitute id p) := by
  unfold propagate
  have hengine : (n.substitute id p).engine.propagate (n.substitute id p).store = _ :=
    Engine.propagate_substitute (s := n.store) hid
  rw [hengine]
  cases n.engine.propagate n.store with
  | error c => rfl
  | ok r => rfl

end Node

namespace Model

variable {asked : Table Interval} {ps : List Posting} {m : Model} {id : PropagatorId}

theorem Sound.exists_posting (h : m.Sound ps) (hid : m.engine.isRetired id = true) :
    ∃ p, ps[id]? = some p ∧ p ∈ ps ∧ Filtering.Entailed p.constraint m.store.view := by
  unfold Engine.isRetired at hid
  split at hid
  · rename_i entry hentry
    have hpropagator : m.engine.propagators[id]? = some entry.propagator := by
      rw [Engine.getElem?_propagators, hentry]
      rfl
    rw [h.propagators, List.getElem?_map, Option.map_eq_some_iff] at hpropagator
    rcases hpropagator with ⟨p, hp, heq⟩
    have hentailed := h.coherent.retired id entry hentry hid
    rw [← heq] at hentailed
    exact ⟨p, hp, List.mem_of_getElem? hp, hentailed⟩
  · contradiction

/-- Where a constraint is entailed, each assignment from the domains satisfies it. -/
theorem Sound.holds_of_entailed (h : m.Sound ps) {p : Posting} (hp : p ∈ ps)
    (hentailed : Filtering.Entailed p.constraint m.store.view) {value : Var → Int}
    (hallows : m.store.Allows value) : p.Holds value := by
  have hhas := h.coherent.has _ (h.mem_propagators hp)
  have hle : ∀ x ∈ p.vars, View.ofValues value x ≤ m.store.view x := fun x hx =>
    Store.allows_iff.mp hallows x (hhas x hx)
  have hvalues := Filtering.entailed_anti hle hentailed
  have hclosed := Filtering.closed_of_entailed (View.consistent_ofValues value) hvalues
  apply (Posting.holds_iff fun x hx => ?_).mpr (Constraint.closed_ofValues_iff.mp hclosed)
  have hleast := h.consistent.least x
  have hgreatest := h.consistent.greatest x
  have hmem := Interval.singleton_le_iff.mp (hle x hx)
  rw [Interval.mem_iff] at hmem
  omega

/-- A retired constraint stays entailed.  As long as the model is not failed, each assignment from the
domains satisfies it, and another run of its propagator would change nothing.  Whatever is requested
later, it stays retired, does not wait, is not woken by any change, and propagation goes on as if any
other propagator stood in its place: it is never run. -/
theorem retired_forever (hm : Reachable asked ps m) (hfine : m.store.failure = none)
    (hid : m.engine.isRetired id = true) :
    ∃ p, ps[id]? = some p ∧
      (∀ value, m.store.Allows value → p.Holds value) ∧
      (∃ verdict, (Propagator.propagate p.constraint).apply m.store =
        .ok (.ok verdict, m.store)) ∧
      ∀ n, Node.Leads m n →
        n.engine.isRetired id = true ∧ id ∉ n.engine.agenda.waiting ∧
        (∀ origin xs e, n.engine.wake origin xs = .ok e → id ∉ e.agenda.waiting) ∧
        ∀ c, (n.substitute id c).propagate =
          n.propagate.map fun (failure, events, k) => (failure, events, k.substitute id c) := by
  have hsound := hm.sound hfine
  obtain ⟨p, hp, hmem, hentailed⟩ := hsound.exists_posting hid
  refine ⟨p, hp, ?_, ?_, ?_⟩
  · intro value hallows
    exact hsound.holds_of_entailed hmem hentailed hallows
  · have hhas := hsound.coherent.has _ (hsound.mem_propagators hmem)
    exact Filtering.propagate_of_entailed p.admissible hsound.consistent hhas hentailed
  · intro n hn
    have htidy := hn.tidy (hm.leads.tidy Engine.tidy_empty)
    have hretired := hn.isRetired hid
    refine ⟨hretired, ?_, ?_, ?_⟩
    · intro hwaiting
      rw [htidy.awake id hwaiting] at hretired
      contradiction
    · intro origin xs e hwake
      exact htidy.not_mem_of_wake hretired hwake
    · intro c
      exact Node.propagate_substitute c hretired

/-- With the first value of the chain fixed to 0, the second one is greater whatever it is, and the
propagator is retired. -/
theorem retired_forever_chain :
    ∃ m events n, chain.update (Update.narrow ⟨0⟩ 0 0) = .ok (.ok true, m) ∧
      m.propagate = .ok (none, events, n) ∧ n.store.domains = #[⟨0, 0⟩, ⟨1, 2⟩] ∧
      n.engine.isRetired 0 = true ∧
      (∀ value, n.store.Allows value → value ⟨0⟩ + 1 ≤ value ⟨1⟩) ∧
      ∀ k, Node.Leads n k → k.engine.isRetired 0 = true ∧ 0 ∉ k.engine.agenda.waiting := by
  obtain ⟨m, events, n, hupdate, hpropagate, hfine, hdomains, hid⟩ :
      ∃ m events n, chain.update (Update.narrow ⟨0⟩ 0 0) = .ok (.ok true, m) ∧
        m.propagate = .ok (none, events, n) ∧ n.store.failure = none ∧
        n.store.domains = #[⟨0, 0⟩, ⟨1, 2⟩] ∧ n.engine.isRetired 0 = true :=
    ⟨_, _, _, rfl, rfl, rfl, rfl, rfl⟩
  have hn := (reachable_chain.narrow hupdate).propagate hpropagate
  obtain ⟨p, hp, hholds, -, hlater⟩ := retired_forever hn hfine hid
  obtain rfl : Posting.precedence ⟨0⟩ 1 ⟨1⟩ = p := Option.some.inj hp
  refine ⟨m, events, n, hupdate, hpropagate, hdomains, hid, hholds, fun k hk => ?_⟩
  exact ⟨(hlater k hk).1, (hlater k hk).2.1⟩

end Model

end FiniteDomain
