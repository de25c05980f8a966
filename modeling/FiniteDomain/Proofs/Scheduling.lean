import FiniteDomain.Proofs.EngineLoop
import FiniteDomain.Proofs.Filtering

/-!
# Scheduling

Why it is enough to run a propagator when a variable that it watches has changed.  At any time a
propagator that is not retired waits, or watches a recorded change which is not its own, or has
nothing to remove; a retired one is entailed, which smaller domains do not undo.  One round of the
engine keeps this up and lowers the fuel that is needed.  When nothing waits and no change is
recorded, every propagator has nothing to remove, and no closed view was lost on the way.
-/

namespace FiniteDomain

namespace Store

@[simp] theorem view_drained (s : Store) : s.drained.view = s.view := rfl

theorem below_drained (s : Store) : s.drained.Below s where
  size := rfl
  view := le_rfl

theorem Consistent.drained {s : Store} (hs : s.Consistent) : s.drained.Consistent :=
  hs.withChanges #[]

end Store

namespace Engine

variable {P : Type} [Propagator P]

section Fuel

variable {e f g : Engine P} {origin : Option PropagatorId} {s t : Store} {id : PropagatorId}
  {b : Agenda}

theorem propagate_of_failure {w : Wipeout} (hs : s.failure = some w) :
    e.propagate s = .ok ⟨e.clearAgenda, s, some w, []⟩ := by
  unfold propagate
  rw [hs]

/-- A round after which the weight is the same has woken nobody, and one propagator less waits. -/
theorem settleFuel_wake_lt (hchanges : s.changes = #[]) (hnext : e.agenda.next = (some id, b))
    (hst : s.Narrowing t) (ht : t.failure = none) (hsize : f.posted.size = e.posted.size)
    (hagenda : f.agenda = b) (hwake : f.wake origin t.changes.toList = .ok g)
    (hwakes : f.Wakes g) : g.settleFuel t.drained < e.settleFuel s := by
  have hgsize : g.posted.size = e.posted.size := by
    rw [hwakes.posted, hsize]
  have hweight : t.drained.weight = t.weight := rfl
  unfold settleFuel
  rw [hgsize, hweight]
  rcases hst.weight with hdomains | hlt
  · have hsame : t = s := hst.eq_of_view_eq ht (congrArg Table.view hdomains)
    subst hsame
    rw [hchanges] at hwake
    simp only [wake, Except.ok.injEq] at hwake
    subst hwake
    have hwaiting := (Agenda.waiting_of_next hnext).1
    rw [hagenda, hwaiting, List.length_cons]
    omega
  · have hlength := hwakes.wellFormed.agenda.length_le
    rw [hwakes.wellFormed.queued, hgsize] at hlength
    have hproduct : (t.weight + 1) * (e.posted.size + 1) ≤ s.weight * (e.posted.size + 1) :=
      Nat.mul_le_mul_right _ hlt
    rw [Nat.add_mul] at hproduct
    omega

end Fuel

variable [Filtering P]

/-- The propagator waits, or watches a recorded change that `origin` has not made, or has nothing to
remove. -/
def Attends (e : Engine P) (origin : Option PropagatorId) (s : Store) (id : PropagatorId)
    (p : P) : Prop :=
  id ∈ e.agenda.waiting ∨
    (some id ≠ origin ∧ ∃ x ∈ Propagator.watched p, x ∈ s.changes) ∨
      (Filtering.Settles p → Filtering.Closed p s.view)

/-- No propagator is forgotten.  The recorded changes were made by `origin`, if there is one. -/
structure Coherent (e : Engine P) (origin : Option PropagatorId) (s : Store) : Prop where
  wellFormed : e.WellFormed
  admissible : ∀ p ∈ e.propagators, Filtering.Admissible p
  has : ∀ p ∈ e.propagators, ∀ x ∈ Propagator.watched p, s.Has x
  retired : ∀ (id : PropagatorId) (entry : Posted P), e.posted[id]? = some entry →
    entry.isRetired = true → Filtering.Entailed entry.propagator s.view
  active : ∀ (id : PropagatorId) (entry : Posted P), e.posted[id]? = some entry →
    entry.isRetired = false → e.Attends origin s id entry.propagator

section Coherence

variable {e : Engine P} {origin : Option PropagatorId} {s t : Store} {id : PropagatorId}
  {entry : Posted P} {b : Agenda}

/-- A propagator that had nothing to remove watches a change, or still has nothing to remove. -/
theorem changed_or_closed {p : P} (hst : s.Narrowing t)
    (hclosed : Filtering.Settles p → Filtering.Closed p s.view) :
    (∃ x ∈ Propagator.watched p, x ∈ t.changes) ∨
      (Filtering.Settles p → Filtering.Closed p t.view) := by
  by_cases hchanged : ∃ x ∈ Propagator.watched p, t.view x ≠ s.view x
  · rcases hchanged with ⟨x, hx, hne⟩
    exact Or.inl ⟨x, hx, hst.mem_changes_of_ne hne⟩
  · right
    intro hsettles
    apply Filtering.closed_congr _ (hclosed hsettles)
    intro x hx
    by_contra hne
    exact hchanged ⟨x, hx, fun heq => hne heq.symm⟩

theorem Coherent.narrowing (h : e.Coherent none s) (hst : s.Narrowing t) :
    e.Coherent none t where
  wellFormed := h.wellFormed
  admissible := h.admissible
  has p hp x hx := hst.has_iff.mpr (h.has p hp x hx)
  retired id entry hentry hretired := by
    apply Filtering.entailed_anti _ (h.retired id entry hentry hretired)
    intro x _
    exact hst.view_le x
  active id entry hentry hactive := by
    rcases h.active id entry hentry hactive with hwaiting | ⟨-, x, hx, hchange⟩ | hclosed
    · exact Or.inl hwaiting
    · exact Or.inr (Or.inl ⟨by simp, x, hx, hst.mem_changes hchange⟩)
    · rcases changed_or_closed hst hclosed with hchanged | hstill
      · exact Or.inr (Or.inl ⟨by simp, hchanged⟩)
      · exact Or.inr (Or.inr hstill)

theorem Coherent.add (h : e.Coherent none s) {p : P}
    (hadmissible : Filtering.Admissible p) (hhas : ∀ x ∈ Propagator.watched p, s.Has x) :
    (e.add p).2.Coherent none s where
  wellFormed := h.wellFormed.add p
  admissible q hq := by
    rw [propagators_add, List.mem_append, List.mem_singleton] at hq
    rcases hq with hq | rfl
    · exact h.admissible q hq
    · exact hadmissible
  has q hq := by
    rw [propagators_add, List.mem_append, List.mem_singleton] at hq
    rcases hq with hq | rfl
    · exact h.has q hq
    · exact hhas
  retired id entry hentry hretired := by
    rw [posted_add] at hentry
    split at hentry
    · rw [Option.some.injEq] at hentry
      subst hentry
      contradiction
    · exact h.retired id entry hentry hretired
  active id entry hentry hactive := by
    have hwaiting := h.wellFormed.mem_waiting_add p id
    rw [posted_add] at hentry
    split at hentry
    · rename_i hid
      exact Or.inl (hwaiting.mpr (Or.inr hid))
    · rcases h.active id entry hentry hactive with hold | hrest
      · exact Or.inl (hwaiting.mpr (Or.inl hold))
      · exact Or.inr hrest

theorem Coherent.congr (h : e.Coherent origin s)
    (hsame : ∀ x, s.Has x → t.Has x ∧ t.view x = s.view x) (hchanges : t.changes = s.changes) :
    e.Coherent origin t where
  wellFormed := h.wellFormed
  admissible := h.admissible
  has p hp x hx := (hsame x (h.has p hp x hx)).1
  retired id entry hentry hretired := by
    have hp := mem_propagators.mpr ⟨id, entry, hentry, rfl⟩
    apply Filtering.entailed_anti _ (h.retired id entry hentry hretired)
    intro x hx
    exact (hsame x (h.has _ hp x hx)).2.le
  active id entry hentry hactive := by
    have hp := mem_propagators.mpr ⟨id, entry, hentry, rfl⟩
    rcases h.active id entry hentry hactive with hwaiting | hchange | hclosed
    · exact Or.inl hwaiting
    · rw [← hchanges] at hchange
      exact Or.inr (Or.inl hchange)
    · refine Or.inr (Or.inr ?_)
      intro hsettles
      apply Filtering.closed_congr _ (hclosed hsettles)
      intro x hx
      exact (hsame x (h.has _ hp x hx)).2.symm

/-- Once the watchers of the recorded changes are woken, the record is not needed any more. -/
theorem Coherent.wake (h : e.Coherent origin s) :
    ∃ f, e.wake origin s.changes.toList = .ok f ∧ e.Wakes f ∧ f.Coherent none s.drained := by
  obtain ⟨f, hf, hwakes, hwaiting⟩ := h.wellFormed.wake_eq_ok origin s.changes.toList
  have hpropagators := propagators_congr hwakes.posted
  refine ⟨f, hf, hwakes, hwakes.wellFormed, ?_, ?_, ?_, ?_⟩
  · rw [hpropagators]
    exact h.admissible
  · rw [hpropagators]
    exact h.has
  · rw [hwakes.posted]
    exact h.retired
  · rw [hwakes.posted]
    intro id entry hentry hactive
    have hnot : e.isRetired id = false := by
      unfold isRetired
      rw [hentry]
      exact hactive
    rcases h.active id entry hentry hactive with hold | ⟨hne, x, hx, hchange⟩ | hclosed
    · exact Or.inl (hwakes.waiting id hold)
    · left
      have hwatch := h.wellFormed.watched id entry hentry x hx
      exact hwaiting x (Array.mem_toList_iff.mpr hchange) id hwatch hne hnot
    · exact Or.inr (Or.inr hclosed)

/-- When the propagator that waited longest has run on a store without recorded changes, only its
own claim to attention is to be looked at. -/
theorem Coherent.afterRun (h : e.Coherent none s) (hchanges : s.changes = #[])
    (hnext : e.agenda.next = (some id, b)) (hst : s.Narrowing t) (runs : Nat)
    (horigin : ∀ other, other ≠ id → some other ≠ origin)
    (hid : ∀ entry, e.posted[id]? = some entry → entry.isRetired = false →
      ({ e with agenda := b, runs := runs } : Engine P).Attends origin t id entry.propagator) :
    ({ e with agenda := b, runs := runs } : Engine P).Coherent origin t := by
  obtain ⟨hwaiting, -⟩ := Agenda.waiting_of_next hnext
  refine ⟨h.wellFormed.afterNext hnext runs, h.admissible,
    fun p hp x hx => hst.has_iff.mpr (h.has p hp x hx), ?_, ?_⟩
  · intro other entry hentry hretired
    apply Filtering.entailed_anti _ (h.retired other entry hentry hretired)
    intro x _
    exact hst.view_le x
  · intro other entry hentry hactive
    by_cases hother : other = id
    · subst hother
      exact hid entry hentry hactive
    · rcases h.active other entry hentry hactive with hmem | ⟨-, x, -, hchange⟩ | hclosed
      · rw [hwaiting, List.mem_cons] at hmem
        exact Or.inl (hmem.resolve_left hother)
      · rw [hchanges] at hchange
        simp at hchange
      · rcases changed_or_closed hst hclosed with hchanged | hstill
        · exact Or.inr (Or.inl ⟨horigin other hother, hchanged⟩)
        · exact Or.inr (Or.inr hstill)

theorem Coherent.retire (h : e.Coherent origin s) (hentry : e.posted[id]? = some entry)
    (hentailed : Filtering.Entailed entry.propagator s.view) :
    (e.retire id entry).Coherent origin s := by
  have hposted := posted_retire hentry
  refine ⟨h.wellFormed.retire hentry, ?_, ?_, ?_, ?_⟩
  · rw [propagators_retire hentry]
    exact h.admissible
  · rw [propagators_retire hentry]
    exact h.has
  · intro other entry' hother hretired
    rw [hposted] at hother
    split at hother
    · simp only [Option.some.injEq] at hother
      subst hother
      exact hentailed
    · exact h.retired other entry' hother hretired
  · intro other entry' hother hactive
    rw [hposted] at hother
    split at hother
    · simp only [Option.some.injEq] at hother
      subst hother
      simp at hactive
    · exact h.active other entry' hother hactive

/-- Whoever is idempotent has nothing more to remove, and whoever is not sees its own changes. -/
theorem Coherent.afterStable {reply : Except Wipeout Verdict} (h : e.Coherent none s)
    (hchanges : s.changes = #[]) (hnext : e.agenda.next = (some id, b))
    (hentry : e.posted[id]? = some entry)
    (heffect : Update.Effect (Propagator.watched entry.propagator)
      (Filtering.Closed entry.propagator) s reply t)
    (hsame : t.view = s.view → Filtering.Closed entry.propagator t.view)
    (hidempotent : Propagator.idempotent entry.propagator = true →
      Filtering.Settles entry.propagator → Filtering.Closed entry.propagator t.view) :
    ({ e with agenda := b, runs := e.runs + 1 } : Engine P).Coherent
      (if Propagator.idempotent entry.propagator then some id else none) t := by
  apply h.afterRun hchanges hnext heffect.narrowing
  · intro other hother
    split
    · simpa using hother
    · simp
  · intro entry' hother _
    rw [hentry, Option.some.injEq] at hother
    subst hother
    by_cases hidem : Propagator.idempotent entry.propagator = true
    · exact Or.inr (Or.inr (hidempotent hidem))
    · rw [if_neg hidem]
      by_cases hview : t.view = s.view
      · exact Or.inr (Or.inr fun _ => hsame hview)
      · rcases Function.ne_iff.mp hview with ⟨x, hx⟩
        have hwatched : x ∈ Propagator.watched entry.propagator := by
          by_contra hnot
          exact hx (heffect.frame x hnot)
        have hchange := heffect.narrowing.mem_changes_of_ne hx
        exact Or.inr (Or.inl ⟨by simp, x, hwatched, hchange⟩)

theorem Coherent.afterEntailed (h : e.Coherent none s) (hchanges : s.changes = #[])
    (hnext : e.agenda.next = (some id, b)) (hentry : e.posted[id]? = some entry)
    (hst : s.Narrowing t) (ht : t.Consistent)
    (hentailed : Filtering.Entailed entry.propagator t.view) :
    (({ e with agenda := b, runs := e.runs + 1 } : Engine P).retire id entry).Coherent
      (some id) t := by
  have hrun : ({ e with agenda := b, runs := e.runs + 1 } : Engine P).Coherent (some id) t := by
    apply h.afterRun hchanges hnext hst
    · intro other hother
      simpa using hother
    · intro entry' hother _
      rw [hentry, Option.some.injEq] at hother
      subst hother
      exact Or.inr (Or.inr fun _ => Filtering.closed_of_entailed ht.view hentailed)
  exact hrun.retire hentry hentailed

/-- With nothing waiting and no change recorded, nobody has anything to remove. -/
theorem Coherent.closed (h : e.Coherent origin s) (hs : s.Consistent)
    (hchanges : s.changes = #[]) (hidle : e.agenda.waiting = []) {p : P}
    (hp : p ∈ e.propagators) (hsettles : Filtering.Settles p) : Filtering.Closed p s.view := by
  rcases mem_propagators.mp hp with ⟨id, entry, hentry, rfl⟩
  cases hretired : entry.isRetired with
  | true => exact Filtering.closed_of_entailed hs.view (h.retired id entry hentry hretired)
  | false =>
      rcases h.active id entry hentry hretired with hwaiting | ⟨-, x, -, hchange⟩ | hclosed
      · rw [hidle] at hwaiting
        simp at hwaiting
      · rw [hchanges] at hchange
        simp at hchange
      · exact hclosed hsettles

end Coherence

/-! ## A run of the engine -/

/-- What may be left by a run of the engine on a store: no closed view is lost, and the engine stops
with a failure or with nothing to do. -/
structure Reaches (e : Engine P) (s : Store) (r : Propagation P) : Prop where
  propagators : r.engine.propagators = e.propagators
  below : r.store.Below s
  failure : r.store.failure = r.failure
  keeps : ∀ V : View, V.Consistent → (∀ p ∈ e.propagators, Filtering.Closed p V) → s.Encloses V →
    r.failure = none ∧ r.store.Encloses V
  consistent : r.failure = none → r.store.Consistent
  coherent : r.failure = none → r.engine.Coherent none r.store
  idle : r.failure = none → r.engine.agenda.waiting = []
  drained : r.failure = none → r.store.changes = #[]

section Run

variable {e f g : Engine P} {origin : Option PropagatorId} {s t : Store} {id : PropagatorId}
  {b : Agenda} {r : Propagation P}

theorem Reaches.closed (h : e.Reaches s r) (hnone : r.failure = none) {p : P}
    (hp : p ∈ e.propagators) (hsettles : Filtering.Settles p) :
    Filtering.Closed p r.store.view := by
  rw [← h.propagators] at hp
  exact (h.coherent hnone).closed (h.consistent hnone) (h.drained hnone) (h.idle hnone) hp hsettles

/-- What a round that is not the last one leads to: a store that has lost no closed view, an engine that
has forgotten nobody, and less fuel that is needed. -/
structure Passes (e : Engine P) (s : Store) (f : Engine P) (t : Store) : Prop where
  propagators : f.propagators = e.propagators
  below : t.Below s
  keeps : ∀ V : View, V.Consistent → (∀ p ∈ e.propagators, Filtering.Closed p V) →
    s.Encloses V → t.Encloses V
  consistent : t.Consistent
  coherent : f.Coherent none t
  drained : t.changes = #[]
  fuel : f.settleFuel t < e.settleFuel s

theorem Reaches.afterRound (h : f.Reaches t r) (hpropagators : f.propagators = e.propagators)
    (hbelow : t.Below s)
    (hkeeps : ∀ V : View, V.Consistent → (∀ p ∈ e.propagators, Filtering.Closed p V) →
      s.Encloses V → t.Encloses V) : e.Reaches s r where
  propagators := h.propagators.trans hpropagators
  below := h.below.trans hbelow
  failure := h.failure
  keeps V hV hclosed hsV := by
    have htV := hkeeps V hV hclosed hsV
    rw [← hpropagators] at hclosed
    exact h.keeps V hV hclosed htV
  consistent := h.consistent
  coherent := h.coherent
  idle := h.idle
  drained := h.drained

theorem reaches_of_idle (hs : s.Consistent) (h : e.Coherent none s) (hchanges : s.changes = #[])
    (hidle : e.agenda.waiting = []) (events : List Event) :
    e.Reaches s ⟨e, s, none, events⟩ where
  propagators := rfl
  below := .refl s
  failure := hs.failure
  keeps _ _ _ hsV := ⟨rfl, hsV⟩
  consistent _ := hs
  coherent _ := h
  idle _ := hidle
  drained _ := hchanges

/-- A run that fails has shown that there was no closed view to keep. -/
theorem reaches_of_failed {w : Wipeout} (hpropagators : f.propagators = e.propagators)
    (hbelow : t.Below s) (hfailure : t.failure = some w)
    (hnone : ∀ V : View, V.Consistent → (∀ p ∈ e.propagators, Filtering.Closed p V) →
      ¬ s.Encloses V) (events : List Event) :
    e.Reaches s ⟨f, t, some w, events⟩ where
  propagators := hpropagators
  below := hbelow
  failure := hfailure
  keeps V hV hclosed hsV := absurd hsV (hnone V hV hclosed)
  consistent hfine := by contradiction
  coherent hfine := by contradiction
  idle hfine := by contradiction
  drained hfine := by contradiction

/-- After a run that did not fail, the recorded changes are distributed. -/
theorem Coherent.distribute (h : f.Coherent origin t) (hs : s.Consistent)
    (hchanges : s.changes = #[]) (hnext : e.agenda.next = (some id, b)) {p : P}
    (hp : p ∈ e.propagators) {verdict : Verdict}
    (heffect : Update.Effect (Propagator.watched p) (Filtering.Closed p) s (.ok verdict) t)
    (hposted : f.propagators = e.propagators) (hagenda : f.agenda = b) (events : List Event) :
    ∃ g, f.distribute origin t events = .goesOn g t.drained events ∧ e.Passes s g t.drained := by
  have ht : t.Consistent := heffect.consistent hs
  have hbelow := Store.Below.of_narrowing heffect.narrowing
  have hsize := size_eq_of_propagators hposted
  obtain ⟨g, hg, hwakes, hcoherent⟩ := h.wake
  refine ⟨g, ?_, ?_⟩
  · unfold Engine.distribute
    rw [hg]
  · exact
      { propagators := (propagators_congr hwakes.posted).trans hposted
        below := t.below_drained.trans hbelow
        keeps := fun V hV hclosed hsV => (heffect.keeps V hV (hclosed p hp) hsV).2
        consistent := ht.drained
        coherent := hcoherent
        drained := rfl
        fuel :=
          settleFuel_wake_lt hchanges hnext heffect.narrowing ht.failure hsize hagenda hg hwakes }

theorem Coherent.passes_skip (h : e.Coherent none s) (hs : s.Consistent)
    (hchanges : s.changes = #[]) (hnext : e.agenda.next = (some id, b))
    (hentry : e.posted[id]? = some entry) (hretired : entry.isRetired = true) :
    e.Passes s { e with agenda := b } s where
  propagators := rfl
  below := .refl s
  keeps _ _ _ hsV := hsV
  consistent := hs
  coherent := by
    apply h.afterRun hchanges hnext .refl e.runs (by simp)
    intro other hother hactive
    rw [hentry, Option.some.injEq] at hother
    rw [← hother, hretired] at hactive
    contradiction
  drained := hchanges
  fuel := by
    unfold settleFuel
    rw [(Agenda.waiting_of_next hnext).1, List.length_cons]
    dsimp only
    omega

/-- A round cannot fault, and either leads to another one or is the last. -/
theorem Coherent.round (h : e.Coherent none s) (hs : s.Consistent) (hchanges : s.changes = #[])
    (events : List Event) :
    (∃ f t events', e.round s events = .goesOn f t events' ∧ e.Passes s f t) ∨
      ∃ r, e.round s events = .ends (.ok r) ∧ e.Reaches s r := by
  rcases hnext : e.agenda.next with ⟨_ | id, b⟩
  · right
    obtain ⟨hidle, rfl⟩ := Agenda.next_eq_none_iff.mp hnext
    have hround : e.round s events = .ends (.ok ⟨e, s, none, events.reverse⟩) := by
      simp [Engine.round, hnext, Store.hasChanges, hchanges]
    exact ⟨_, hround, reaches_of_idle hs h hchanges hidle _⟩
  · have hlt : id < e.posted.size := h.wellFormed.lt_of_next hnext
    obtain ⟨entry, hentry⟩ : ∃ entry, e.posted[id]? = some entry :=
      ⟨_, Array.getElem?_eq_getElem hlt⟩
    have hfetch : e.posted.fetch id = .ok entry := Table.fetch_eq_ok_iff.mpr hentry
    cases hretired : entry.isRetired with
    | true =>
        left
        have hround : e.round s events = .goesOn { e with agenda := b } s events := by
          simp [Engine.round, hnext, hfetch, hretired]
        exact ⟨_, _, _, hround, h.passes_skip hs hchanges hnext hentry hretired⟩
    | false =>
        have hp : entry.propagator ∈ e.propagators := mem_propagators.mpr ⟨id, entry, hentry, rfl⟩
        obtain ⟨reply, t, happly, heffect, hpost⟩ :=
          Filtering.prunes (h.admissible _ hp) hs (h.has _ hp)
        cases reply with
        | error w =>
            right
            have hnone : ∀ V : View, V.Consistent →
                (∀ p ∈ e.propagators, Filtering.Closed p V) → ¬ s.Encloses V := by
              intro V hV hclosed hsV
              obtain ⟨⟨verdict, hverdict⟩, -⟩ := heffect.keeps V hV (hclosed _ hp) hsV
              contradiction
            have hbelow := Store.Below.of_narrowing heffect.narrowing
            unfold Engine.round
            simp only [hnext, hfetch, hretired, happly, Bool.false_eq_true, if_false]
            refine ⟨_, rfl, ?_⟩
            apply reaches_of_failed _ hbelow heffect.agrees hnone
            rfl
        | ok verdict =>
            left
            unfold Engine.round
            simp only [hnext, hfetch, hretired, happly, Bool.false_eq_true, if_false]
            cases verdict with
            | stable =>
                obtain ⟨hsame, hidempotent, -⟩ := hpost _ rfl
                have hcoherent := h.afterStable hchanges hnext hentry heffect hsame hidempotent
                obtain ⟨f, hround, hpasses⟩ :=
                  hcoherent.distribute hs hchanges hnext hp heffect rfl rfl events
                exact ⟨f, _, _, hround, hpasses⟩
            | entailed =>
                obtain ⟨-, -, hverdict⟩ := hpost _ rfl
                have hretire := h.afterEntailed hchanges hnext hentry heffect.narrowing
                  (heffect.consistent hs) (hverdict rfl)
                have hpropagators :=
                  propagators_retire (e := { e with agenda := b, runs := e.runs + 1 }) hentry
                obtain ⟨f, hround, hpasses⟩ :=
                  hretire.distribute hs hchanges hnext hp heffect hpropagators rfl
                    (.retired (Propagator.name entry.propagator) id :: events)
                exact ⟨f, _, _, hround, hpasses⟩

theorem settle_reaches {fuel : Nat} (events : List Event) (hfuel : e.settleFuel s ≤ fuel)
    (hs : s.Consistent) (h : e.Coherent none s) (hchanges : s.changes = #[]) :
    ∃ r, settle fuel e s events = .ok r ∧ e.Reaches s r := by
  -- the induction is on the fuel, of which each round takes at most one unit
  induction fuel generalizing e s events with
  | zero =>
      unfold settleFuel at hfuel
      omega
  | succ fuel ih =>
      rw [settle_succ]
      rcases h.round hs hchanges events with
        ⟨f, t, events', hround, hpasses⟩ | ⟨r, hround, hreaches⟩
      · have hless := hpasses.fuel
        obtain ⟨r, hr, hreaches⟩ :=
          ih events' (by omega) hpasses.consistent hpasses.coherent hpasses.drained
        rw [hround]
        exact ⟨r, hr, hreaches.afterRound hpasses.propagators hpasses.below hpasses.keeps⟩
      · rw [hround]
        exact ⟨r, rfl, hreaches⟩

theorem propagate_reaches (hs : s.Consistent) (h : e.Coherent none s) :
    ∃ r, e.propagate s = .ok r ∧ e.Reaches s r := by
  obtain ⟨f, hf, hwakes, hcoherent⟩ := h.wake
  have hpropagators := propagators_congr hwakes.posted
  obtain ⟨r, hr, hreaches⟩ := settle_reaches [] le_rfl hs.drained hcoherent rfl
  refine ⟨r, ?_, hreaches.afterRound hpropagators s.below_drained fun _ _ _ hsV => hsV⟩
  unfold propagate
  rw [hs.failure]
  dsimp only [Store.drain]
  rw [hf]
  exact hr

end Run

end Engine

end FiniteDomain
