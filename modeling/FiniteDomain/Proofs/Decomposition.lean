import FiniteDomain.Proofs.Calling
import FiniteDomain.Proofs.GreatestBox
import FiniteDomain.Proofs.SearchSoundness

/-!
# Decomposition of non-overlap

That several rectangles do not overlap can be posted as one constraint, or as one for each pair.  The
engine of a model then runs other propagators, in another order, and retires them at other times.
The search does not notice.  The closed views are the same, propagation finds the greatest one, and
everything else that a search does depends on the domains and on the branchers alone.  So two
searches go side by side, and after any number of calls they have returned the same solutions and
have counted the same nodes.
-/

namespace FiniteDomain

/-- A narrowing that is accepted leaves a store that is not failed. -/
theorem Store.failure_eq_none_of_narrow {s t : Store} {x : Var} {lb ub : Int}
    {reply : Except Wipeout Bool} (h : s.narrow x lb ub = .ok (reply, t))
    (haccepted : ∀ w, reply ≠ .error w) : t.failure = none := by
  rcases narrow_cases h with ⟨w, hw, -⟩ | ⟨hfine, -, -, -, rfl⟩
  · exact absurd hw (haccepted w)
  · rw [failure_cut]
    exact hfine

section Pairs

/-- One non-overlap for each two rectangles. -/
def Posting.eachPair : List Rectangle → List Posting
  | [] => []
  | i :: rest => rest.map (fun j => nonOverlap [i, j]) ++ eachPair rest

/-- The constraint with one non-overlap for each pair of rectangles in the place of one for all. -/
def Posting.pairwise : Posting → List Posting
  | nonOverlap rectangles => eachPair rectangles
  | p => [p]

theorem Posting.pairwise_nonOverlap (rectangles : List Rectangle) :
    (nonOverlap rectangles).pairwise =
      (NonOverlap.pairsOf rectangles).map fun pair => nonOverlap [pair.1, pair.2] := by
  change eachPair rectangles = _
  induction rectangles with
  | nil => rfl
  | cons i rest ih =>
      unfold eachPair NonOverlap.pairsOf
      rw [ih, List.map_append, List.map_map]
      rfl

theorem Posting.closed_pairwise_iff {p : Posting} {V : View} :
    (∀ q ∈ p.pairwise, Filtering.Closed q.constraint V) ↔ Filtering.Closed p.constraint V := by
  cases p with
  | precedence x gap y => exact List.forall_mem_singleton
  | disequality a b => exact List.forall_mem_singleton
  | nonOverlap rectangles =>
      have hpair : ∀ pair : Rectangle × Rectangle,
          Filtering.Closed (Posting.nonOverlap [pair.1, pair.2]).constraint V ↔
            NonOverlap.PairClosed pair.1 pair.2 V :=
        fun pair => List.forall_mem_singleton
      rw [pairwise_nonOverlap, List.forall_mem_map]
      simp only [hpair]
      rfl

theorem Posting.distinct_pairwise {p q : Posting} (hp : p.Distinct) (hq : q ∈ p.pairwise) :
    q.Distinct := by
  cases p with
  | precedence x gap y =>
      obtain rfl := List.mem_singleton.mp hq
      exact hp
  | disequality a b =>
      obtain rfl := List.mem_singleton.mp hq
      exact hp
  | nonOverlap rectangles =>
      rw [pairwise_nonOverlap] at hq
      obtain ⟨pair, -, rfl⟩ := List.mem_map.mp hq
      exact trivial

theorem Posting.vars_pairwise {p q : Posting} (hq : q ∈ p.pairwise) {x : Var} (hx : x ∈ q.vars) :
    x ∈ p.vars := by
  cases p with
  | precedence x gap y => rwa [List.mem_singleton.mp hq] at hx
  | disequality a b => rwa [List.mem_singleton.mp hq] at hx
  | nonOverlap rectangles =>
      rw [pairwise_nonOverlap] at hq
      obtain ⟨⟨i, j⟩, hpair, rfl⟩ := List.mem_map.mp hq
      obtain ⟨hi, hj⟩ := NonOverlap.mem_of_mem_pairsOf hpair
      obtain ⟨r, hr, hcorner⟩ := List.mem_flatMap.mp hx
      apply List.mem_flatMap.mpr
      rcases List.mem_pair.mp hr with rfl | rfl
      · exact ⟨_, hi, hcorner⟩
      · exact ⟨_, hj, hcorner⟩

/-- The two lists of constraints have the same closed views, and propagation settles in them. -/
structure Posting.Equivalent (ps qs : List Posting) : Prop where
  distinct : ∀ p ∈ ps, p.Distinct
  distinct' : ∀ q ∈ qs, q.Distinct
  closed_iff : ∀ V : View, (∀ q ∈ qs, Filtering.Closed q.constraint V) ↔
    ∀ p ∈ ps, Filtering.Closed p.constraint V

theorem Posting.equivalent_nil : Equivalent [] [] where
  distinct := by simp
  distinct' := by simp
  closed_iff := by simp

theorem Posting.Equivalent.append {ps qs ps' qs' : List Posting} (h : Equivalent ps qs)
    (h' : Equivalent ps' qs') : Equivalent (ps ++ ps') (qs ++ qs') where
  distinct p hp := (List.mem_append.mp hp).elim (h.distinct p) (h'.distinct p)
  distinct' q hq := (List.mem_append.mp hq).elim (h.distinct' q) (h'.distinct' q)
  closed_iff V := by
    rw [List.forall_mem_append, List.forall_mem_append, h.closed_iff, h'.closed_iff]

theorem Posting.equivalent_singleton {p : Posting} (hp : p.Distinct) : Equivalent [p] [p] where
  distinct := List.forall_mem_singleton.mpr hp
  distinct' := List.forall_mem_singleton.mpr hp
  closed_iff _ := Iff.rfl

theorem Posting.equivalent_pairwise {p : Posting} (hp : p.Distinct) :
    Equivalent [p] p.pairwise where
  distinct := List.forall_mem_singleton.mpr hp
  distinct' _ hq := distinct_pairwise hp hq
  closed_iff V := by rw [closed_pairwise_iff, List.forall_mem_singleton]

end Pairs

namespace Node

variable {P B : Type}

/-- The node with another engine. -/
def withEngine (n : Node P B) (e : Engine P) : Node P B :=
  { n with engine := e }

theorem update_withEngine {α : Type} (n : Node P B) (e : Engine P) (u : Update α) :
    (n.withEngine e).update u =
      (n.update u).map fun (reply, m) => (reply, m.withEngine e) := by
  unfold update
  change u.apply n.store >>= _ = _
  cases u.apply n.store with
  | error f => rfl
  | ok r => rfl

variable [Brancher B]

/-- Branchers do not look at the engine. -/
theorem chooseAmong_withEngine (n : Node P B) (e : Engine P) (count : Nat) :
    (n.withEngine e).chooseAmong count =
      (n.chooseAmong count).map fun (choice, m) => (choice, m.withEngine e) := by
  induction count generalizing n with
  | zero => rfl
  | succ count ih =>
      unfold chooseAmong
      change n.branchers.fetch n.firstActive >>= _ = _
      cases n.branchers.fetch n.firstActive with
      | error f => rfl
      | ok b =>
          change Brancher.status b n.store >>= _ = Except.map _ (Brancher.status b n.store >>= _)
          cases Brancher.status b n.store with
          | error f => rfl
          | ok r =>
              obtain ⟨left, b'⟩ := r
              cases left with
              | true =>
                  change Brancher.choose b' n.firstActive n.store >>= _ =
                    Except.map _ (Brancher.choose b' n.firstActive n.store >>= _)
                  cases Brancher.choose b' n.firstActive n.store with
                  | error f => rfl
                  | ok r' => rfl
              | false =>
                  exact ih
                    { n with
                      branchers := n.branchers.setIfInBounds n.firstActive b'
                      firstActive := n.firstActive + 1 }

theorem choose_withEngine (n : Node P B) (e : Engine P) :
    (n.withEngine e).choose = n.choose.map fun (choice, m) => (choice, m.withEngine e) := by
  unfold choose
  change Fault.check (!n.isFailed) >>= _ = Except.map _ (Fault.check (!n.isFailed) >>= _)
  cases Fault.check (!n.isFailed) with
  | error f => rfl
  | ok u => exact chooseAmong_withEngine n e _

theorem commit_withEngine (n : Node P B) (e : Engine P) (c : Choice) (alternative : Nat) :
    (n.withEngine e).commit c alternative =
      (n.commit c alternative).map fun (reply, m) => (reply, m.withEngine e) := by
  unfold commit
  cases Fault.check (alternative < c.alternatives) with
  | error f => rfl
  | ok u =>
      change n.branchers.fetch c.brancher >>= _ = Except.map _ (n.branchers.fetch c.brancher >>= _)
      cases n.branchers.fetch c.brancher with
      | error f => rfl
      | ok b => exact update_withEngine n e _

end Node

namespace Model

variable {asked : Table Interval} {ps qs : List Posting} {m m' n n' : Model}

/-- Two sound nodes that only differ in their engines. -/
structure Twins (ps qs : List Posting) (n n' : Model) : Prop where
  sound : n.Sound ps
  sound' : n'.Sound qs
  frame : n' = n.withEngine n'.engine

/-- A sound model may as well have been asked for the domains that it has. -/
theorem Sound.traced (h : n.Sound ps) : n.Traced n.store.domains ps where
  size := rfl
  keeps _ _ _ hV := ⟨h.consistent.failure, hV⟩
  within _ _ _ := le_rfl
  sound _ := h

theorem Twins.store_eq (h : Twins ps qs n n') : n'.store = n.store := by
  rw [h.frame]
  rfl

/-- What is left by a propagation that has not failed: no change is recorded. -/
theorem Traced.afterPropagate (h : m.Traced asked ps) {events : List Event}
    (hpropagate : m.propagate = .ok (none, events, n)) :
    n.Sound ps ∧ n.store.failure = none ∧ n.store.changes = #[] ∧
      n = { m with engine := n.engine, store := n.store } := by
  have hfine := failure_eq_none_of_propagate hpropagate (Or.inl rfl)
  obtain ⟨r, hr, hreaches⟩ := (h.sound hfine).propagate_eq_ok
  rw [hpropagate, Except.ok.injEq, Prod.mk.injEq, Prod.mk.injEq] at hr
  obtain ⟨hnone, -, rfl⟩ := hr
  exact ⟨(h.sound hfine).afterPropagate hreaches hnone.symm,
    (hreaches.consistent hnone.symm).failure, hreaches.drained hnone.symm, rfl⟩

/-- Of two twins both fail, or both come to the same store. -/
theorem Twins.propagate (h : Twins ps qs m m') (hps : Posting.Equivalent ps qs) :
    (∃ w events n w' events' n', m.propagate = .ok (some w, events, n) ∧
        m'.propagate = .ok (some w', events', n') ∧ n.store.failure ≠ none ∧
          n'.store.failure ≠ none) ∨
      ∃ events n events' n', m.propagate = .ok (none, events, n) ∧
        m'.propagate = .ok (none, events', n') ∧ Twins ps qs n n' := by
  have htraced := h.sound.traced
  have htraced' := h.sound'.traced
  rw [h.store_eq] at htraced'
  obtain ⟨failure, events, n, hrun, hgreatest⟩ := htraced.propagate_eq_ok
  obtain ⟨failure', events', n', hrun', hgreatest'⟩ := htraced'.propagate_eq_ok
  obtain ⟨hiff, hdomains⟩ := hgreatest.unique_of_closed_iff hgreatest' hps.distinct hps.distinct'
    hps.closed_iff
  cases failure with
  | some w =>
      cases failure' with
      | some w' =>
          refine Or.inl ⟨w, events, n, w', events', n', hrun, hrun', ?_, ?_⟩
          · simp [hgreatest.agrees]
          · simp [hgreatest'.agrees]
      | none => exact absurd (hiff.mp rfl) (by simp)
  | none =>
      obtain rfl := hiff.mpr rfl
      refine Or.inr ⟨events, n, events', n', hrun, hrun', ?_⟩
      obtain ⟨hsound, hfine, hchanges, hn⟩ := htraced.afterPropagate hrun
      obtain ⟨hsound', hfine', hchanges', hn'⟩ := htraced'.afterPropagate hrun'
      have hstore : n'.store = n.store := by
        calc
          n'.store = ⟨n'.store.domains, n'.store.changes, n'.store.failure⟩ := rfl
          _ = ⟨n.store.domains, n.store.changes, n.store.failure⟩ := by
            rw [hdomains rfl, hchanges', hchanges, hfine', hfine]
      refine ⟨hsound, hsound', ?_⟩
      rw [hn', hn, hstore, h.frame]
      rfl

theorem Twins.choose (h : Twins ps qs n n') {choice : Option Choice} {m : Model}
    (hchoose : n.choose = .ok (choice, m)) :
    ∃ m', n'.choose = .ok (choice, m') ∧ Twins ps qs m m' := by
  have hchoose' : n'.choose = .ok (choice, m.withEngine n'.engine) := by
    rw [h.frame, Node.choose_withEngine, hchoose]
    rfl
  exact ⟨_, hchoose', h.sound.afterChoose hchoose, h.sound'.afterChoose hchoose', rfl⟩

theorem Twins.choose_error (h : Twins ps qs n n') {f : Fault} (hchoose : n.choose = .error f) :
    n'.choose = .error f := by
  rw [h.frame, Node.choose_withEngine, hchoose]
  rfl

/-- An alternative does the same to both. -/
theorem Twins.commit (h : Twins ps qs n n') (c : Choice) (alternative : Nat) :
    n'.commit c alternative =
      (n.commit c alternative).map fun (reply, m) => (reply, m.withEngine n'.engine) := by
  conv_lhs => rw [h.frame]
  exact Node.commit_withEngine n n'.engine c alternative

/-- Twins that have been narrowed alike are twins. -/
theorem Twins.afterNarrowing (h : Twins ps qs n n') {m : Model}
    (hst : n.store.Narrowing m.store) (hm : m = { n with store := m.store })
    (hfine : m.store.failure = none) : Twins ps qs m (m.withEngine n'.engine) where
  sound := by
    rw [hm]
    exact h.sound.afterNarrowing hst hfine
  sound' := by
    have hn' : m.withEngine n'.engine = { n' with store := m.store } := by
      rw [hm, h.frame]
      rfl
    rw [hn']
    rw [← h.store_eq] at hst
    exact h.sound'.afterNarrowing hst hfine
  frame := rfl

/-- The models are failed, both of them, or they are twins. -/
inductive Abreast (ps qs : List Posting) (m m' : Model) : Prop
  | failed (h : m.store.failure ≠ none) (h' : m'.store.failure ≠ none)
  | twins (h : Twins ps qs m m')

theorem Abreast.propagate (h : Abreast ps qs m m') (hps : Posting.Equivalent ps qs) :
    (∃ w events n w' events' n', m.propagate = .ok (some w, events, n) ∧
        m'.propagate = .ok (some w', events', n') ∧ n.store.failure ≠ none ∧
          n'.store.failure ≠ none) ∨
      ∃ events n events' n', m.propagate = .ok (none, events, n) ∧
        m'.propagate = .ok (none, events', n') ∧ Twins ps qs n n' := by
  cases h with
  | twins h => exact h.propagate hps
  | failed h h' =>
      obtain ⟨w, hw⟩ := Option.ne_none_iff_exists'.mp h
      obtain ⟨w', hw'⟩ := Option.ne_none_iff_exists'.mp h'
      exact Or.inl ⟨w, _, _, w', _, _, propagate_of_failure hw, propagate_of_failure hw', h, h'⟩

/-- The model after one constraint after the other is posted. -/
def postEach (m : Model) (ps : List Posting) : Model :=
  ps.foldl (fun m p => (m.post p.constraint).2) m

/-- Two models that are made by the same requests, except that where one of them gets a non-overlap
of several rectangles, the other one gets a non-overlap for each pair of them. -/
inductive SideBySide : Model → Model → Prop
  | empty : SideBySide Node.empty Node.empty
  | newVar {m m' : Model} (hm : SideBySide m m') (lb ub : Int) :
      SideBySide (m.newVar lb ub).2 (m'.newVar lb ub).2
  | narrow {m m' n n' : Model} {x : Var} {lb ub : Int} {reply reply' : Except Wipeout Bool}
      (hm : SideBySide m m') (h : m.update (Update.narrow x lb ub) = .ok (reply, n))
      (h' : m'.update (Update.narrow x lb ub) = .ok (reply', n')) : SideBySide n n'
  | post {m m' : Model} (hm : SideBySide m m') (p : Posting) (hdistinct : p.Distinct)
      (hvars : ∀ x ∈ p.vars, m.store.Has x) :
      SideBySide (m.post p.constraint).2 (m'.post p.constraint).2
  | separate {m m' : Model} (hm : SideBySide m m') (rectangles : List Rectangle)
      (hvars : ∀ x ∈ Posting.vars (.nonOverlap rectangles), m.store.Has x) :
      SideBySide (m.post (Posting.nonOverlap rectangles).constraint).2
        (postEach m' (Posting.nonOverlap rectangles).pairwise)
  | branch {m m' : Model} (hm : SideBySide m m') (b : Strategy) (hfresh : b.IsFresh) :
      SideBySide (m.branch b).2 (m'.branch b).2
  | choose {m m' n n' : Model} {choice choice' : Option Choice} (hm : SideBySide m m')
      (h : m.choose = .ok (choice, n)) (h' : m'.choose = .ok (choice', n')) : SideBySide n n'
  | commit {m m' n n' : Model} {c : Choice} {alternative : Nat} {reply reply' : Except Wipeout Unit}
      (hm : SideBySide m m') (h : m.commit c alternative = .ok (reply, n))
      (h' : m'.commit c alternative = .ok (reply', n')) : SideBySide n n'
  | propagate {m m' n n' : Model} {failure failure' : Option Wipeout} {events events' : List Event}
      (hm : SideBySide m m') (h : m.propagate = .ok (failure, events, n))
      (h' : m'.propagate = .ok (failure', events', n')) : SideBySide n n'

section Building

theorem store_post (m : Model) (p : Constraint) : (m.post p).2.store = m.store := by
  unfold Node.post
  split <;> rfl

theorem store_postEach (m : Model) (ps : List Posting) : (postEach m ps).store = m.store := by
  induction ps generalizing m with
  | nil => rfl
  | cons p rest ih => exact (ih _).trans (store_post m p.constraint)

theorem Sound.afterPostEach (h : m.Sound ps) {rest : List Posting}
    (hvars : ∀ p ∈ rest, ∀ x ∈ p.vars, m.store.Has x) :
    Sound (ps ++ rest) (postEach m rest) ∧
      postEach m rest = m.withEngine (postEach m rest).engine := by
  induction rest generalizing m ps with
  | nil =>
      rw [List.append_nil]
      exact ⟨h, rfl⟩
  | cons p rest ih =>
      have hposted := h.afterPost p (hvars p List.mem_cons_self)
      obtain ⟨hsound, hframe⟩ := ih hposted fun q hq x hx => by
        rw [store_post]
        exact hvars q (List.mem_cons_of_mem p hq) x hx
      rw [← List.append_cons] at hsound
      refine ⟨hsound, hframe.trans ?_⟩
      change _ = m.withEngine (postEach (m.post p.constraint).2 rest).engine
      rw [post_eq h.consistent.failure]
      rfl

theorem failure_newVar (h : m.store.failure ≠ none) (lb ub : Int) :
    (m.newVar lb ub).2.store.failure ≠ none := by
  rcases newVar_cases m lb ub with ⟨-, hfailed⟩ | ⟨-, heq⟩
  · exact hfailed
  · rw [heq]
    exact h

theorem Twins.abreast_of_narrowing (h : Twins ps qs n n') {m : Model}
    (hst : n.store.Narrowing m.store) (hm : m = { n with store := m.store }) :
    Abreast ps qs m (m.withEngine n'.engine) := by
  by_cases hfine : m.store.failure = none
  · exact .twins (h.afterNarrowing hst hm hfine)
  · exact .failed hfine hfine

theorem Abreast.afterNewVar (h : Abreast ps qs m m') (lb ub : Int) :
    Abreast ps qs (m.newVar lb ub).2 (m'.newVar lb ub).2 := by
  cases h with
  | failed h h' => exact .failed (failure_newVar h lb ub) (failure_newVar h' lb ub)
  | twins h =>
      have hframe : (m'.newVar lb ub).2 = Node.withEngine (m.newVar lb ub).2 m'.engine := by
        conv_lhs => rw [h.frame]
        rfl
      by_cases hfine : (m.newVar lb ub).2.store.failure = none
      · have hfine' : (m'.newVar lb ub).2.store.failure = none := by
          rw [hframe]
          exact hfine
        exact .twins ⟨h.sound.afterNewVar hfine, h.sound'.afterNewVar hfine', hframe⟩
      · refine .failed hfine ?_
        rw [hframe]
        exact hfine

/-- A failed model is not narrowed any more. -/
theorem failure_of_narrowing (h : m.store.failure ≠ none) (hst : m.store.Narrowing n.store) :
    n.store.failure ≠ none := by
  intro hfine
  exact h (hst.failure_eq_none hfine)

theorem Abreast.afterNarrow (h : Abreast ps qs m m') {x : Var} {lb ub : Int}
    {reply reply' : Except Wipeout Bool}
    (hn : m.update (Update.narrow x lb ub) = .ok (reply, n))
    (hn' : m'.update (Update.narrow x lb ub) = .ok (reply', n')) : Abreast ps qs n n' := by
  obtain ⟨hnarrow, heq⟩ := Node.update_eq_ok hn
  have hst := Store.Narrowing.refl.narrow hnarrow
  cases h with
  | failed h h' =>
      obtain ⟨hnarrow', -⟩ := Node.update_eq_ok hn'
      exact .failed (failure_of_narrowing h hst)
        (failure_of_narrowing h' (Store.Narrowing.refl.narrow hnarrow'))
  | twins h =>
      have hboth := h.abreast_of_narrowing hst heq
      rw [h.frame, Node.update_withEngine, hn] at hn'
      obtain ⟨-, rfl⟩ := Prod.mk.inj (Except.ok.inj hn')
      exact hboth

theorem Abreast.afterPost (h : Abreast ps qs m m') (p : Posting)
    (hvars : ∀ x ∈ p.vars, m.store.Has x) {rest : List Posting}
    (hrest : ∀ q ∈ rest, ∀ x ∈ q.vars, x ∈ p.vars) :
    Abreast (ps ++ [p]) (qs ++ rest) (m.post p.constraint).2 (postEach m' rest) := by
  cases h with
  | failed h h' =>
      refine .failed ?_ ?_
      · rw [store_post]
        exact h
      · rw [store_postEach]
        exact h'
  | twins h =>
      have hvars' : ∀ q ∈ rest, ∀ x ∈ q.vars, m'.store.Has x := by
        intro q hq x hx
        rw [h.store_eq]
        exact hvars x (hrest q hq x hx)
      obtain ⟨hsound', hframe'⟩ := h.sound'.afterPostEach hvars'
      refine .twins ⟨h.sound.afterPost p hvars, hsound', ?_⟩
      rw [hframe', h.frame, post_eq h.sound.consistent.failure]
      rfl

theorem Abreast.afterBranch (h : Abreast ps qs m m') {b : Strategy} (hfresh : b.IsFresh) :
    Abreast ps qs (m.branch b).2 (m'.branch b).2 := by
  cases h with
  | failed h h' =>
      have hstore : ∀ m : Model, (m.branch b).2.store = m.store := by
        intro m
        unfold Node.branch
        split <;> rfl
      refine .failed ?_ ?_
      · rw [hstore]
        exact h
      · rw [hstore]
        exact h'
  | twins h =>
      refine .twins ⟨h.sound.afterBranch hfresh, h.sound'.afterBranch hfresh, ?_⟩
      rw [branch_eq h.sound'.consistent.failure, branch_eq h.sound.consistent.failure]
      rw [h.frame]
      rfl

theorem Abreast.afterChoose (h : Abreast ps qs m m') {choice choice' : Option Choice}
    (hn : m.choose = .ok (choice, n)) (hn' : m'.choose = .ok (choice', n')) :
    Abreast ps qs n n' := by
  cases h with
  | failed h h' => exact absurd (failure_eq_none_of_choose hn) h
  | twins h =>
      obtain ⟨k, hk, htwins⟩ := h.choose hn
      obtain ⟨-, rfl⟩ := Prod.mk.inj (Except.ok.inj (hk.symm.trans hn'))
      exact .twins htwins

theorem Abreast.afterCommit (h : Abreast ps qs m m') {c : Choice} {alternative : Nat}
    {reply reply' : Except Wipeout Unit} (hn : m.commit c alternative = .ok (reply, n))
    (hn' : m'.commit c alternative = .ok (reply', n')) : Abreast ps qs n n' := by
  obtain ⟨-, heq, b, x, d, changed, -, -, hnarrow, -⟩ := commit_eq_ok hn
  have hst := Store.Narrowing.refl.narrow hnarrow
  cases h with
  | failed h h' =>
      obtain ⟨-, -, b', x', d', changed', -, -, hnarrow', -⟩ := commit_eq_ok hn'
      exact .failed (failure_of_narrowing h hst)
        (failure_of_narrowing h' (Store.Narrowing.refl.narrow hnarrow'))
  | twins h =>
      have hboth := h.abreast_of_narrowing hst heq
      rw [h.commit, hn] at hn'
      obtain ⟨-, rfl⟩ := Prod.mk.inj (Except.ok.inj hn')
      exact hboth

end Building

/-- Whatever is requested of both, the models stay abreast. -/
theorem SideBySide.abreast (h : SideBySide m m') :
    ∃ ps qs, Posting.Equivalent ps qs ∧ Abreast ps qs m m' := by
  induction h with
  | empty => exact ⟨[], [], Posting.equivalent_nil, .twins ⟨sound_empty, sound_empty, rfl⟩⟩
  | newVar _ lb ub ih =>
      obtain ⟨ps, qs, hps, habreast⟩ := ih
      exact ⟨ps, qs, hps, habreast.afterNewVar lb ub⟩
  | narrow _ hn hn' ih =>
      obtain ⟨ps, qs, hps, habreast⟩ := ih
      exact ⟨ps, qs, hps, habreast.afterNarrow hn hn'⟩
  | post _ p hdistinct hvars ih =>
      obtain ⟨ps, qs, hps, habreast⟩ := ih
      refine ⟨ps ++ [p], qs ++ [p], hps.append (Posting.equivalent_singleton hdistinct), ?_⟩
      apply habreast.afterPost p hvars
      intro q hq x hx
      rwa [List.mem_singleton.mp hq] at hx
  | separate _ rectangles hvars ih =>
      obtain ⟨ps, qs, hps, habreast⟩ := ih
      have hpairwise := Posting.equivalent_pairwise (p := .nonOverlap rectangles) trivial
      refine ⟨_, _, hps.append hpairwise, ?_⟩
      apply habreast.afterPost _ hvars
      exact fun q hq x hx => Posting.vars_pairwise hq hx
  | branch _ b hfresh ih =>
      obtain ⟨ps, qs, hps, habreast⟩ := ih
      exact ⟨ps, qs, hps, habreast.afterBranch hfresh⟩
  | choose _ hn hn' ih =>
      obtain ⟨ps, qs, hps, habreast⟩ := ih
      exact ⟨ps, qs, hps, habreast.afterChoose hn hn'⟩
  | commit _ hn hn' ih =>
      obtain ⟨ps, qs, hps, habreast⟩ := ih
      exact ⟨ps, qs, hps, habreast.afterCommit hn hn'⟩
  | propagate _ hn hn' ih =>
      obtain ⟨ps, qs, hps, habreast⟩ := ih
      refine ⟨ps, qs, hps, ?_⟩
      rcases habreast.propagate hps with ⟨w, events, k, w', events', k', hrun, hrun', hk, hk'⟩ |
        ⟨events, k, events', k', hrun, hrun', htwins⟩
      · obtain ⟨-, -, rfl⟩ := Prod.mk.inj (Except.ok.inj (hrun.symm.trans hn))
        obtain ⟨-, -, rfl⟩ := Prod.mk.inj (Except.ok.inj (hrun'.symm.trans hn'))
        exact .failed hk hk'
      · obtain ⟨-, -, rfl⟩ := Prod.mk.inj (Except.ok.inj (hrun.symm.trans hn))
        obtain ⟨-, -, rfl⟩ := Prod.mk.inj (Except.ok.inj (hrun'.symm.trans hn'))
        exact .twins htwins

/-- Three squares of extent one. -/
def tiles : List Rectangle :=
  (List.range 3).map fun k => ⟨⟨2 * k⟩, .clamp 1, ⟨2 * k + 1⟩, .clamp 1⟩

/-- The corners of the tiles are to be found in a square of extent two. -/
def tiled (ps : List Posting) : Model :=
  let m := postEach ((Node.empty : Model).newVars 0 1 6).2 ps
  (m.branch (.labelling (.ascending ((List.range 6).map Var.mk)))).2

theorem sideBySide_tiled :
    SideBySide (tiled [.nonOverlap tiles]) (tiled (Posting.nonOverlap tiles).pairwise) := by
  have hxs := ((SideBySide.empty.newVar 0 1).newVar 0 1).newVar 0 1
  have hvars := ((hxs.newVar 0 1).newVar 0 1).newVar 0 1
  exact (hvars.separate tiles (by decide)).branch _ rfl

end Model

/-- The statistics apart from the work of the engines. -/
def Counters.explored (c : Counters) : Counters :=
  { c with propagations := 0, retired := 0 }

theorem Counters.explored_eq_iff {c c' : Counters} :
    c'.explored = c.explored ↔ c'.nodes = c.nodes ∧ c'.failures = c.failures ∧
      c'.solutions = c.solutions ∧ c'.decisions = c.decisions ∧ c'.maxDepth = c.maxDepth := by
  cases c
  cases c'
  simp [explored]

namespace Search

variable {ps qs : List Posting} {s s' : Search Constraint Strategy} {n n' : Model}

/-- Two searches that have the same before them: their open nodes differ in their engines only, and
so do their roots, if they have not been visited yet. -/
structure Alike (ps qs : List Posting) (s s' : Search Constraint Strategy) : Prop where
  root : (s.root = none ∧ s'.root = none) ∨ (s.best = none ∧ ∃ m m', s.root = some m ∧
    s'.root = some m' ∧ Model.Abreast ps qs m m')
  stack : List.Forall₂ (fun top top' => Model.Twins ps qs top.node top'.node ∧
    top'.choice = top.choice ∧ top'.next = top.next) s.stack s'.stack
  frame : s' = { s with root := s'.root, stack := s'.stack, counters := s'.counters }
  counters : s'.counters.explored = s.counters.explored

/-- Both computations fault in the same way, or both go on alike with the same solution. -/
inductive Matches (ps qs : List Posting) :
    Except Crash (Outcome Constraint Strategy) → Except Crash (Outcome Constraint Strategy) → Prop
  | ok {o o' : Outcome Constraint Strategy} (halike : Alike ps qs o.search o'.search)
      (hsolution : o'.solution = o.solution) : Matches ps qs (.ok o) (.ok o')
  | fault {c c' : Crash} (h : c'.fault = c.fault) : Matches ps qs (.error c) (.error c')

variable {x x' : Except Crash (Outcome Constraint Strategy)}

theorem Matches.fault_or_ok (h : Matches ps qs x x') :
    (∃ c c', x = .error c ∧ x' = .error c' ∧ c'.fault = c.fault) ∨
      ∃ o o', x = .ok o ∧ x' = .ok o' ∧ Alike ps qs o.search o'.search ∧
        o'.solution = o.solution := by
  cases h with
  | ok halike hsolution => exact Or.inr ⟨_, _, rfl, rfl, halike, hsolution⟩
  | fault hfault => exact Or.inl ⟨_, _, rfl, rfl, hfault⟩

theorem Matches.mapEvents
    (h : Matches ps qs x x') (f f' : List Event → List Event) :
    Matches ps qs (Outcome.mapEvents f x) (Outcome.mapEvents f' x') := by
  cases h with
  | ok halike hsolution => exact .ok halike hsolution
  | fault h => exact .fault h

theorem Alike.root_eq_none (h : Alike ps qs s s') (hroot : s.root = none) : s'.root = none := by
  rcases h.root with ⟨-, hroot'⟩ | ⟨-, m, m', hsome, -⟩
  · exact hroot'
  · rw [hroot] at hsome
    contradiction

theorem Alike.objective_eq (h : Alike ps qs s s') : s'.objective = s.objective := by
  rw [h.frame]

theorem Alike.best_eq (h : Alike ps qs s s') : s'.best = s.best := by
  rw [h.frame]

theorem Alike.progress_eq (h : Alike ps qs s s') : s'.progress = s.progress := by
  rw [h.frame]

theorem Alike.verbosity_eq (h : Alike ps qs s s') : s'.verbosity = s.verbosity := by
  rw [h.frame]

theorem Alike.nodes_eq (h : Alike ps qs s s') : s'.counters.nodes = s.counters.nodes :=
  show s'.counters.explored.nodes = s.counters.explored.nodes by rw [h.counters]

theorem Alike.isLimitReached_eq (h : Alike ps qs s s') :
    s'.isLimitReached = s.isLimitReached := by
  unfold isLimitReached
  rw [h.nodes_eq, h.frame]

theorem constrain_withEngine (s : Search Constraint Strategy) (n : Model) (e : Engine Constraint) :
    s.constrain (n.withEngine e) =
      (s.constrain n).map fun (failure, m) => (failure, m.withEngine e) := by
  unfold constrain
  split
  · rw [Node.update_withEngine]
    cases n.update _ with
    | error f => rfl
    | ok r =>
        obtain ⟨reply, m⟩ := r
        cases reply with
        | error w => rfl
        | ok changed => rfl
  · rfl

/-- What a search needs to know of two nodes before it visits them. -/
def Meets (ps qs : List Posting) (s : Search Constraint Strategy) (n n' : Model) : Prop :=
  (s.best = none ∧ Model.Abreast ps qs n n') ∨ Model.Twins ps qs n n'

/-- The bound on the objective does the same to both nodes. -/
theorem Alike.constrain (h : Alike ps qs s s') (hmeets : s.Meets ps qs n n') :
    (∃ f, s.constrain n = .error f ∧ s'.constrain n' = .error f) ∨
      (∃ w n₁ n₁', s.constrain n = .ok (some w, n₁) ∧ s'.constrain n' = .ok (some w, n₁')) ∨
        ∃ n₁ n₁', s.constrain n = .ok (none, n₁) ∧ s'.constrain n' = .ok (none, n₁') ∧
          Model.Abreast ps qs n₁ n₁' := by
  have hconstrain : s'.constrain n' = s.constrain n' := by
    unfold Search.constrain
    rw [h.objective_eq, h.best_eq]
  rw [hconstrain]
  rcases hmeets with ⟨hbest, habreast⟩ | htwins
  · right
    right
    have hfree : ∀ m : Model, s.constrain m = .ok (none, m) := by
      intro m
      unfold Search.constrain
      rw [hbest]
      cases s.objective <;> rfl
    exact ⟨n, n', hfree n, hfree n', habreast⟩
  · rw [htwins.frame, constrain_withEngine]
    cases hn : s.constrain n with
    | error f => exact Or.inl ⟨f, rfl, rfl⟩
    | ok r =>
        obtain ⟨failure, n₁⟩ := r
        right
        cases failure with
        | some w => exact Or.inl ⟨w, n₁, _, rfl, rfl⟩
        | none =>
            right
            obtain ⟨hst, heq⟩ := narrowing_of_constrain hn
            have hfine : n₁.store.failure = none := by
              rcases constrain_eq_ok hn with ⟨-, rfl, -⟩ | ⟨_, _, reply, -, -, hnarrow, -, hreply⟩
              · exact htwins.sound.consistent.failure
              · obtain ⟨changed, rfl⟩ := hreply.mp rfl
                exact Store.failure_eq_none_of_narrow hnarrow (by simp)
            exact ⟨n₁, _, rfl, rfl, .twins (htwins.afterNarrowing hst heq hfine)⟩

theorem Alike.withCounters (h : Alike ps qs s s') {c c' : Counters}
    (hc : c'.explored = c.explored) :
    Alike ps qs { s with counters := c } { s' with counters := c' } where
  root := h.root
  stack := h.stack
  frame := by rw [h.frame]
  counters := hc

theorem Alike.charge (h : Alike ps qs s s') (before after before' after' : Engine Constraint) :
    Alike ps qs (s.charge before after) (s'.charge before' after') :=
  h.withCounters h.counters

theorem Alike.countFailure (h : Alike ps qs s s') :
    Alike ps qs s.countFailure s'.countFailure := by
  obtain ⟨hnodes, hfailures, hrest⟩ := Counters.explored_eq_iff.mp h.counters
  apply h.withCounters
  rw [Counters.explored_eq_iff]
  exact ⟨congrArg (· + 1) hnodes, congrArg (· + 1) hfailures, hrest⟩

theorem Alike.push (h : Alike ps qs s s') (hn : Model.Twins ps qs n n') (c : Choice) :
    Alike ps qs (s.push n c) (s'.push n' c) where
  root := h.root
  stack := .cons ⟨hn, rfl, rfl⟩ h.stack
  frame := by
    rw [h.frame]
    rfl
  counters := by
    obtain ⟨hnodes, hfailures, hsolutions, hdecisions, hdepth⟩ :=
      Counters.explored_eq_iff.mp h.counters
    have hlength := h.stack.length_eq
    rw [Counters.explored_eq_iff]
    unfold Search.push
    simp only [List.length_cons]
    omega

/-- Where no root is left, twins are accepted alike. -/
theorem Alike.accept (h : Alike ps qs s s') (hroot : s.root = none)
    (hn : Model.Twins ps qs n n') :
    (∃ f, s.accept n = .error f ∧ s'.accept n' = .error f) ∨
      ∃ t event t' event', s.accept n = .ok (t, event) ∧ s'.accept n' = .ok (t', event') ∧
        Alike ps qs t t' := by
  have hstore := hn.store_eq
  have hroot' := h.root_eq_none hroot
  obtain ⟨hnodes, hfailures, hsolutions, hdecisions, hdepth⟩ :=
    Counters.explored_eq_iff.mp h.counters
  have hcounted :
      ({ s'.counters with nodes := s'.counters.nodes + 1, solutions := s'.counters.solutions + 1 } :
        Counters).explored =
      ({ s.counters with nodes := s.counters.nodes + 1, solutions := s.counters.solutions + 1 } :
        Counters).explored := by
    rw [Counters.explored_eq_iff]
    dsimp only
    omega
  unfold Search.accept
  rw [hstore]
  cases hobjective : s.objective with
  | none =>
      have hobjective' := h.objective_eq.trans hobjective
      rw [hobjective']
      have hcounters := h.withCounters hcounted
      rw [hobjective, hobjective'] at hcounters
      exact Or.inr ⟨_, _, _, _, rfl, rfl, hcounters⟩
  | some objective =>
      have hobjective' := h.objective_eq.trans hobjective
      rw [hobjective']
      dsimp only
      cases hbest : objective.bestIn n.store with
      | error f => exact Or.inl ⟨f, rfl, rfl⟩
      | ok value =>
          refine Or.inr ⟨_, _, _, _, rfl, rfl, Or.inl ⟨hroot, hroot'⟩, h.stack, ?_, hcounted⟩
          rw [h.frame]

/-- Two nodes that the searches have met are visited alike. -/
theorem Alike.visit (h : Alike ps qs s s') (hps : Posting.Equivalent ps qs) (hroot : s.root = none)
    (hmeets : s.Meets ps qs n n') :
    Matches ps qs (s.visit n) (s'.visit n') := by
  unfold Search.visit
  rcases h.constrain hmeets with ⟨f, hc, hc'⟩ | ⟨w, n₁, n₁', hc, hc'⟩ |
    ⟨n₁, n₁', hc, hc', habreast⟩
  · simp only [hc, hc', Crash.after, bind, Except.bind]
    exact .fault rfl
  · simp only [hc, hc', Crash.after, bind, Except.bind]
    exact .ok h.countFailure rfl
  · simp only [hc, hc', Crash.after, bind, Except.bind]
    rcases habreast.propagate hps with ⟨w, events, m, w', events', m', hrun, hrun', -, -⟩ |
      ⟨events, m, events', m', hrun, hrun', htwins⟩
    · simp only [hrun, hrun']
      exact .ok (h.charge n₁.engine m.engine n₁'.engine m'.engine).countFailure rfl
    · have hcharged := h.charge n₁.engine m.engine n₁'.engine m'.engine
      simp only [hrun, hrun']
      cases hchoose : m.choose with
      | error f =>
          simp only [htwins.choose_error hchoose]
          exact .fault rfl
      | ok r =>
          obtain ⟨choice, m₁⟩ := r
          obtain ⟨m₁', hchoose', htwins'⟩ := htwins.choose hchoose
          simp only [hchoose']
          cases choice with
          | some c => exact .ok (hcharged.push htwins' c) rfl
          | none =>
              have hstore := htwins'.store_eq
              rcases hcharged.accept hroot htwins' with ⟨f, ha, ha'⟩ |
                ⟨t, event, t', event', ha, ha', halike⟩
              · unfold Search.charge at ha ha'
                simp only [ha, ha']
                exact .fault rfl
              · unfold Search.charge at ha ha'
                simp only [ha, ha', hstore]
                exact .ok halike rfl

/-- The open nodes of both searches go on to the next alternative. -/
theorem Alike.takeNext (h : Alike ps qs s s') {top top' : OpenNode Constraint Strategy}
    {below below' : List (OpenNode Constraint Strategy)} (hstack : s.stack = top :: below)
    (hstack' : s'.stack = top' :: below') :
    Alike ps qs { s with stack := remainder top below }
      { s' with stack := remainder top' below' } where
  root := h.root
  stack := by
    have hall := h.stack
    rw [hstack, hstack', List.forall₂_cons] at hall
    obtain ⟨⟨htwins, hchoice, hnext⟩, hbelow⟩ := hall
    dsimp only
    unfold remainder
    rw [hchoice, hnext]
    split
    · exact .cons ⟨htwins, rfl, rfl⟩ hbelow
    · exact hbelow
  frame := by rw [h.frame]
  counters := h.counters

theorem Alike.descend (h : Alike ps qs s s') (hps : Posting.Equivalent ps qs)
    (hroot : s.root = none) {top top' : OpenNode Constraint Strategy}
    {below below' : List (OpenNode Constraint Strategy)} (hstack : s.stack = top :: below)
    (hstack' : s'.stack = top' :: below') :
    Matches ps qs (s.descend top below) (s'.descend top' below') := by
  have htaken := h.takeNext hstack hstack'
  have hall := h.stack
  rw [hstack, hstack', List.forall₂_cons] at hall
  obtain ⟨⟨htwins, hchoice, hnext⟩, -⟩ := hall
  have hdescribe : top'.node.describe top'.choice top'.next =
      top.node.describe top.choice top.next := by
    rw [htwins.frame, hchoice, hnext]
    rfl
  have hcommit := htwins.commit top.choice top.next
  unfold Search.descend
  extract_lets alternative stack rest commits alternative' stack' rest' commits'
  have hcommitted : ∀ taken taken', Matches ps qs (commits taken) (commits' taken') := by
    intro taken taken'
    unfold commits commits'
    simp only [alternative, alternative', hchoice, hnext, hcommit]
    cases hresult : top.node.commit top.choice top.next with
    | error f => exact .fault rfl
    | ok r =>
        obtain ⟨reply, m⟩ := r
        cases reply with
        | error w => exact .ok htaken.countFailure rfl
        | ok u =>
            obtain ⟨-, heq, b, x, d, changed, -, -, hnarrow, hreply⟩ := Model.commit_eq_ok hresult
            have hfine : m.store.failure = none := by
              apply Store.failure_eq_none_of_narrow hnarrow
              rintro w rfl
              contradiction
            have hst := Store.Narrowing.refl.narrow hnarrow
            have hmeets : rest.Meets ps qs m (m.withEngine top'.node.engine) :=
              Or.inr (htwins.afterNarrowing hst heq hfine)
            exact (htaken.visit hps hroot hmeets).mapEvents _ _
  have hverbosity := h.verbosity_eq
  by_cases htrace : s.verbosity = .trace
  · rw [if_pos htrace, if_pos (hverbosity.trans htrace)]
    simp only [alternative, alternative', hdescribe]
    cases top.node.describe top.choice top.next with
    | error f => exact .fault rfl
    | ok text => exact hcommitted _ _
  · rw [if_neg htrace, if_neg (fun htrace' => htrace (hverbosity.symm.trans htrace'))]
    exact hcommitted [] []

theorem Alike.withProgress (h : Alike ps qs s s') (progress : Progress) :
    Alike ps qs { s with progress := progress } { s' with progress := progress } where
  root := h.root
  stack := h.stack
  frame := by rw [h.frame]
  counters := h.counters

theorem Alike.takeRoot (h : Alike ps qs s s') :
    Alike ps qs { s with root := none } { s' with root := none } where
  root := Or.inl ⟨rfl, rfl⟩
  stack := h.stack
  frame := by rw [h.frame]
  counters := h.counters

theorem Alike.explore (h : Alike ps qs s s') (hps : Posting.Equivalent ps qs) :
    Matches ps qs s.explore s'.explore := by
  unfold Search.explore
  rw [h.progress_eq, h.isLimitReached_eq]
  split
  · exact .ok h rfl
  · split
    · exact .ok (h.withProgress .interrupted) rfl
    · rcases h.root with ⟨hroot, hroot'⟩ | ⟨hbest, m, m', hroot, hroot', habreast⟩
      · rw [hroot, hroot']
        cases hstack : s.stack with
        | nil =>
            have hstack' : s'.stack = [] := by
              have hall := h.stack
              rwa [hstack, List.forall₂_nil_left_iff] at hall
            rw [hstack']
            have hended := h.withProgress .exhausted
            rw [hroot, hroot', hstack, hstack'] at hended
            exact .ok hended rfl
        | cons top below =>
            cases hstack' : s'.stack with
            | nil =>
                have hlength := h.stack.length_eq
                rw [hstack, hstack'] at hlength
                contradiction
            | cons top' below' => exact h.descend hps hroot hstack hstack'
      · have hvisit := h.takeRoot.visit hps rfl (Or.inl ⟨hbest, habreast⟩)
        rw [h.progress_eq] at hvisit
        rw [hroot, hroot']
        simpa only using hvisit

/-- Both searches take their next step alike. -/
theorem Alike.step (h : Alike ps qs s s') (hps : Posting.Equivalent ps qs) :
    Matches ps qs s.step s'.step :=
  (h.explore hps).mapEvents _ _

theorem Alike.run (h : Alike ps qs s s') (hps : Posting.Equivalent ps qs) (fuel : Nat)
    (events events' : Array Event) :
    Matches ps qs (s.run fuel events) (s'.run fuel events') := by
  induction fuel generalizing s s' events events' with
  | zero => exact .ok h rfl
  | succ fuel ih =>
      unfold Search.run
      rw [h.progress_eq]
      split
      · exact .ok h rfl
      · rcases (h.step hps).fault_or_ok with ⟨c, c', hs, hs', hfault⟩ |
          ⟨o, o', hs, hs', halike, hsolution⟩
        · rw [hs, hs']
          exact .fault hfault
        · rw [hs, hs']
          dsimp only
          rw [hsolution]
          cases o.solution with
          | some sol => exact .ok halike rfl
          | none => exact ih halike _ _

/-- What there is to see of a search from the outside, apart from the work of the engines. -/
structure Report where
  solutions : List (Option Solution)
  progress : Progress
  best : Option Int
  explored : Counters
deriving DecidableEq, Repr

/-- The answers to so many calls, and how far the search has come by then. -/
def report (fuel calls : Nat) (s : Search Constraint Strategy) : Except Fault Report :=
  (Crash.forget (s.replies fuel calls)).map fun (sols, t) =>
    ⟨sols, t.progress, t.best, t.counters.explored⟩

theorem report_succ {fuel calls : Nat} {o : Outcome Constraint Strategy}
    (h : s.next fuel = .ok o) :
    s.report fuel (calls + 1) =
      (o.search.report fuel calls).map fun r =>
        { r with solutions := o.solution :: r.solutions } := by
  have hreplies : s.replies fuel (calls + 1) = do
      let (later, t) ← o.search.replies fuel calls
      return (o.solution :: later, t) := by
    change s.next fuel >>= _ = _
    rw [h]
    rfl
  unfold report
  rw [hreplies]
  cases o.search.replies fuel calls with
  | error c => rfl
  | ok r => rfl

theorem Alike.report_eq (h : Alike ps qs s s') (hps : Posting.Equivalent ps qs)
    (fuel calls : Nat) : s'.report fuel calls = s.report fuel calls := by
  induction calls generalizing s s' with
  | zero =>
      unfold report replies
      simp only [Crash.forget, Except.map, h.progress_eq, h.best_eq, h.counters]
  | succ calls ih =>
      rcases (h.run hps fuel #[] #[]).fault_or_ok with ⟨c, c', hs, hs', hfault⟩ |
        ⟨o, o', hs, hs', halike, hsolution⟩
      · unfold report replies next
        simp only [hs, hs', bind, Except.bind, Crash.forget, Except.map, hfault]
      · rw [report_succ hs, report_succ hs', ih halike, hsolution]

/-- Two models that were made side by side, one with non-overlaps of several rectangles, the other
one with non-overlaps of two, are searched with the same report: the same solutions in all domains,
the same end, and the same nodes.  This holds after any number of calls and within any budget. -/
theorem report_decomposed {m m' : Model} {budget : Budget} {verbosity : Level}
    (hm : Model.SideBySide m m')
    (hs : (s = enumerate m budget verbosity ∧ s' = enumerate m' budget verbosity) ∨
      ∃ objective, s = optimize m objective budget verbosity ∧
        s' = optimize m' objective budget verbosity)
    (fuel calls : Nat) : s'.report fuel calls = s.report fuel calls := by
  obtain ⟨ps, qs, hps, habreast⟩ := hm.abreast
  have halike : Alike ps qs s s' := by
    rcases hs with ⟨rfl, rfl⟩ | ⟨objective, rfl, rfl⟩
    · exact ⟨Or.inr ⟨rfl, m, m', rfl, rfl, habreast⟩, .nil, rfl, rfl⟩
    · exact ⟨Or.inr ⟨rfl, m, m', rfl, rfl, habreast⟩, .nil, rfl, rfl⟩
  exact halike.report_eq hps fuel calls

/-- The first solution of the tiles is the seventh node, also when they are taken pair by pair. -/
theorem report_decomposed_tiled :
    ((enumerate (Model.tiled (Posting.nonOverlap Model.tiles).pairwise) .unlimited .info).report
      10 1).toOption.map (fun r => (r.solutions.length, r.explored.nodes)) = some (1, 7) := by
  rw [report_decomposed Model.sideBySide_tiled (Or.inl ⟨rfl, rfl⟩) 10 1]
  decide +kernel

end Search

end FiniteDomain
