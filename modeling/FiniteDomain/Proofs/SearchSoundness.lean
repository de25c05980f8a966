import FiniteDomain.Proofs.Stepping
import FiniteDomain.Proofs.Tracing

/-!
# Soundness of search

Each node that a search holds descends from the root: it is sound, its domains lie within those of
the root, and its strategies are those of the root.  Narrowing by a bound on the objective, or by an
alternative of any strategy whatsoever, keeps a node sound, so that its propagation ends in a closed
view for every constraint, whether or not its propagator has been retired on the way down.  A
solution is such a view.
-/

namespace FiniteDomain

namespace Model

/-- A node of a search below `root`. -/
structure Descends (root : Model) (ps : List Posting) (n : Model) : Prop where
  sound : n.Sound ps
  below : n.store.Below root.store
  policies : n.policies = root.policies

/-- What is known of a solution of a search below `root`. -/
structure Answers (root : Model) (ps : List Posting) (sol : Solution) : Prop where
  consistent : sol.store.Consistent
  below : sol.store.Below root.store
  closed : ∀ p ∈ ps, p.Distinct → Filtering.Closed p.constraint sol.store.view
  decided : ∀ b ∈ root.policies, ∀ x ∈ b.labels, sol.store.Decides x

variable {root n : Model} {ps : List Posting}

theorem Sound.descends (h : root.Sound ps) : root.Descends ps root where
  sound := h
  below := .refl root.store
  policies := rfl

theorem Descends.afterNarrowing (h : root.Descends ps n) {t : Store}
    (hst : n.store.Narrowing t) (ht : t.failure = none) :
    root.Descends ps { n with store := t } where
  sound := h.sound.afterNarrowing hst ht
  below := (Store.Below.of_narrowing hst).trans h.below
  policies := h.policies

theorem Descends.afterCommit (h : root.Descends ps n) {c : Choice} {alternative : Nat} {n' : Model}
    {reply : Except Wipeout Unit} (hcommit : n.commit c alternative = .ok (reply, n'))
    (hfine : n'.store.failure = none) : root.Descends ps n' := by
  obtain ⟨-, heq, b, x, d, changed, -, -, hnarrow, -⟩ := commit_eq_ok hcommit
  have hst := Store.Narrowing.refl.narrow hnarrow
  rw [heq]
  exact h.afterNarrowing hst hfine

theorem Descends.afterPropagate (h : root.Descends ps n) {r : Propagation Constraint}
    (hreaches : n.engine.Reaches n.store r) (hnone : r.failure = none) :
    root.Descends ps { n with engine := r.engine, store := r.store } where
  sound := h.sound.afterPropagate hreaches hnone
  below := hreaches.below.trans h.below
  policies := h.policies

theorem Descends.afterChoose (h : root.Descends ps n) {choice : Option Choice} {n' : Model}
    (hchoose : n.choose = .ok (choice, n')) : root.Descends ps n' := by
  have hchooses := h.sound.remembers.chooses hchoose
  refine ⟨h.sound.afterChoose hchoose, ?_, hchooses.policies.trans h.policies⟩
  rw [hchooses.store]
  exact h.below

end Model

namespace Search

variable {root n n₁ n₂ n₃ : Model} {ps : List Posting} {s t : Search Constraint Strategy}
  {sol : Option Solution} {sols : List Solution}

theorem narrowing_of_constrain {failure : Option Wipeout}
    (h : s.constrain n = .ok (failure, n₁)) :
    n.store.Narrowing n₁.store ∧ n₁ = { n with store := n₁.store } := by
  rcases constrain_eq_ok h with ⟨-, rfl, -⟩ | ⟨objective, best, reply, -, -, hnarrow, heq, -⟩
  · exact ⟨.refl, rfl⟩
  · exact ⟨Store.Narrowing.refl.narrow hnarrow, heq⟩

theorem propagate_of_constrain {events : List Event}
    (hn : n.store.failure = none → Model.Descends root ps n)
    (hconstrain : s.constrain n = .ok (none, n₁))
    (hpropagate : n₁.propagate = .ok (none, events, n₂)) :
    Model.Descends root ps n₁ ∧ ∃ r, n₁.engine.Reaches n₁.store r ∧ r.failure = none ∧
      n₂ = { n₁ with engine := r.engine, store := r.store } := by
  obtain ⟨hst, heq⟩ := narrowing_of_constrain hconstrain
  have hfine := Model.failure_eq_none_of_propagate hpropagate (Or.inl rfl)
  have hdescends : Model.Descends root ps n₁ := by
    rw [heq]
    exact (hn (hst.failure_eq_none hfine)).afterNarrowing hst hfine
  obtain ⟨r, hr, hreaches⟩ := hdescends.sound.propagate_eq_ok
  rw [hr, Except.ok.injEq, Prod.mk.injEq, Prod.mk.injEq] at hpropagate
  rcases hpropagate with ⟨hnone, -, rfl⟩
  exact ⟨hdescends, r, hreaches, hnone, rfl⟩

theorem answers_of_choose {r : Propagation Constraint}
    (hn₁ : Model.Descends root ps n₁) (hreaches : n₁.engine.Reaches n₁.store r)
    (hnone : r.failure = none) (hn₂ : n₂ = { n₁ with engine := r.engine, store := r.store })
    (hchoose : n₂.choose = .ok (none, n₃)) : Model.Answers root ps ⟨n₃.store⟩ := by
  have hdescends : Model.Descends root ps n₂ := by
    rw [hn₂]
    exact hn₁.afterPropagate hreaches hnone
  have hstore := (hdescends.sound.remembers.chooses hchoose).store
  refine ⟨?_, ?_, ?_, ?_⟩
  · rw [hstore]
    exact hdescends.sound.consistent
  · rw [hstore]
    exact hdescends.below
  · intro p hp hdistinct
    have hclosed := hreaches.closed hnone (hn₁.sound.mem_propagators hp)
      (Posting.settles_iff.mpr hdistinct)
    rw [hstore, hn₂]
    exact hclosed
  · intro b hb x hx
    rw [← hdescends.policies] at hb
    rw [hstore]
    exact hdescends.sound.remembers.decides_of_choose hchoose hb hx

/-- All nodes of the search descend from `root`, which is itself untouched until it is visited. -/
structure Explores (root : Model) (ps : List Posting) (s : Search Constraint Strategy) : Prop where
  untouched : ∀ n, s.root = some n → n = root
  descends : ∀ top ∈ s.stack, Model.Descends root ps top.node

theorem Explores.afterVisit (hs : Explores root ps s)
    (hn : n.store.failure = none → Model.Descends root ps n) (h : Visit s n t sol) :
    Explores root ps t ∧ ∀ a ∈ sol, Model.Answers root ps a := by
  cases h with
  | unimproved => exact ⟨⟨hs.untouched, hs.descends⟩, by simp⟩
  | failed => exact ⟨⟨hs.untouched, hs.descends⟩, by simp⟩
  | split hconstrain hpropagate hchoose =>
      obtain ⟨hn₁, r, hreaches, hnone, heq⟩ := propagate_of_constrain hn hconstrain hpropagate
      refine ⟨⟨hs.untouched, ?_⟩, by simp⟩
      intro top htop
      rcases List.mem_cons.mp htop with rfl | htop
      · subst heq
        exact (hn₁.afterPropagate hreaches hnone).afterChoose hchoose
      · exact hs.descends top htop
  | solved hconstrain hpropagate hchoose hbest =>
      obtain ⟨hn₁, r, hreaches, hnone, heq⟩ := propagate_of_constrain hn hconstrain hpropagate
      refine ⟨⟨hs.untouched, hs.descends⟩, ?_⟩
      intro a ha
      rw [Option.mem_some_iff] at ha
      subst ha
      exact answers_of_choose hn₁ hreaches hnone heq hchoose

theorem mem_remainder {top other : OpenNode Constraint Strategy}
    {below : List (OpenNode Constraint Strategy)} (h : other ∈ remainder top below) :
    (other.node = top.node ∧ other.choice = top.choice) ∨ other ∈ below := by
  unfold remainder at h
  split at h
  · rcases List.mem_cons.mp h with rfl | h
    · exact Or.inl ⟨rfl, rfl⟩
    · exact Or.inr h
  · exact Or.inr h

theorem Explores.takeNext {top : OpenNode Constraint Strategy}
    {below : List (OpenNode Constraint Strategy)} (hs : Explores root ps s)
    (hstack : s.stack = top :: below) : Explores root ps { s with stack := remainder top below } where
  untouched := hs.untouched
  descends other hother := by
    have hdescends := hs.descends
    rw [hstack] at hdescends
    rcases mem_remainder hother with ⟨hnode, -⟩ | hbelow
    · rw [hnode]
      exact hdescends top List.mem_cons_self
    · exact hdescends other (List.mem_cons_of_mem _ hbelow)

theorem Explores.afterStep (hroot : root.store.failure = none → root.Sound ps)
    (hs : Explores root ps s) (h : Step s t sol) :
    Explores root ps t ∧ ∀ a ∈ sol, Model.Answers root ps a := by
  cases h with
  | finished => exact ⟨hs, by simp⟩
  | interrupted => exact ⟨⟨hs.untouched, hs.descends⟩, by simp⟩
  | exhausted => exact ⟨⟨hs.untouched, hs.descends⟩, by simp⟩
  | root hprogress hsome hvisit =>
      have heq := hs.untouched _ hsome
      apply Explores.afterVisit _ _ hvisit
      · exact ⟨by simp, hs.descends⟩
      · rw [heq]
        intro hfine
        exact (hroot hfine).descends
  | dropped hprogress hnone hstack hcommit =>
      have htaken := hs.takeNext hstack
      exact ⟨⟨htaken.untouched, htaken.descends⟩, by simp⟩
  | child hprogress hnone hstack hcommit hvisit =>
      have htop := hs.descends _ (hstack ▸ List.mem_cons_self)
      exact (hs.takeNext hstack).afterVisit (fun hfine => htop.afterCommit hcommit hfine) hvisit

theorem Explores.afterSteps (hroot : root.store.failure = none → root.Sound ps)
    (hs : Explores root ps s) (h : s.Steps sols t) :
    Explores root ps t ∧ ∀ a ∈ sols, Model.Answers root ps a := by
  induction h with
  | refl => exact ⟨hs, by simp⟩
  | step _ hstep ih =>
      rcases ih with ⟨hexplores, hanswers⟩
      obtain ⟨hexplores', hanswer⟩ := hexplores.afterStep hroot hstep
      refine ⟨hexplores', ?_⟩
      intro a ha
      rcases List.mem_append.mp ha with ha | ha
      · exact hanswers a ha
      · exact hanswer a (Option.mem_toList.mp ha)

end Search

namespace Model.Answers

variable {root : Model} {ps : List Posting} {sol : Solution}

/-- Where the variables of a constraint are bound in an answer, their values satisfy it. -/
theorem holds (h : root.Answers ps sol) {p : Posting} (hp : p ∈ ps) (hdistinct : p.Distinct)
    {value : Var → Int} (hvalue : ∀ x ∈ p.vars, sol.store.value? x = .ok (some (value x))) :
    p.Holds value := by
  have hbound : ∀ x ∈ p.vars, sol.store.view x = .singleton (value x) := by
    intro x hx
    exact (Store.value?_eq_some_iff.mp (hvalue x hx)).2
  have hrange : ∀ x ∈ p.vars, Word.minValue ≤ value x ∧ value x ≤ Word.maxValue := by
    intro x hx
    have hleast := h.consistent.least x
    have hgreatest := h.consistent.greatest x
    rw [hbound x hx] at hleast hgreatest
    exact ⟨hleast, hgreatest⟩
  rw [Posting.holds_iff hrange]
  exact Constraint.holds_of_closed (h.closed p hp hdistinct) hbound

end Model.Answers

namespace Search

/-- Every solution that a search returns satisfies the constraints whose variables it binds. -/
theorem returned_holds {asked : Table Interval} {ps : List Posting} {root : Model}
    {s t : Search Constraint Strategy} {budget : Budget} {verbosity : Level}
    {sols : List Solution} (hroot : Model.Reachable asked ps root)
    (hdistinct : ∀ p ∈ ps, p.Distinct)
    (hs : s = enumerate root budget verbosity ∨
      ∃ objective, s = optimize root objective budget verbosity)
    (hreturns : s.Returns sols t) {sol : Solution} (hsol : sol ∈ sols) {p : Posting} (hp : p ∈ ps)
    {value : Var → Int} (hvalue : ∀ x ∈ p.vars, sol.store.value? x = .ok (some (value x))) :
    p.Holds value := by
  have hexplores : Explores root ps s := by
    rcases hs with rfl | ⟨objective, rfl⟩
    · exact ⟨fun n hn => (Option.some.inj hn).symm, by simp [enumerate]⟩
    · exact ⟨fun n hn => (Option.some.inj hn).symm, by simp [optimize, enumerate]⟩
  have hanswers := (hexplores.afterSteps hroot.sound hreturns.steps).2
  exact (hanswers sol hsol).holds hp (hdistinct p hp) hvalue

/-- The first solution of the chain binds its variables to 0 and 1, which are in order. -/
theorem returned_holds_chain :
    ∃ o, (enumerate Model.chain .unlimited .info).next 10 = .ok o ∧
      o.solution = some ⟨⟨#[⟨0, 0⟩, ⟨1, 1⟩], #[], none⟩⟩ ∧
        (Posting.precedence ⟨0⟩ 1 ⟨1⟩).Holds fun x => x.index := by
  obtain ⟨o, hnext, hsol⟩ : ∃ o, (enumerate Model.chain .unlimited .info).next 10 = .ok o ∧
      o.solution = some ⟨⟨#[⟨0, 0⟩, ⟨1, 1⟩], #[], none⟩⟩ := ⟨_, rfl, rfl⟩
  refine ⟨o, hnext, hsol, ?_⟩
  have hreturns := Returns.start.call hnext
  have hvalue : ∀ x ∈ Posting.vars (.precedence ⟨0⟩ 1 ⟨1⟩),
      (⟨#[⟨0, 0⟩, ⟨1, 1⟩], #[], none⟩ : Store).value? x = .ok (some x.index) := by
    decide
  exact returned_holds Model.reachable_chain (by decide) (Or.inl rfl) hreturns
    (by simp [hsol]) List.mem_cons_self hvalue

end Search

end FiniteDomain
