import FiniteDomain.Proofs.SearchSoundness
import FiniteDomain.Proofs.Serving

/-!
# Safety of search

No call of a search faults.  A node that is visited is failed, and then no bound of it is computed
with, or it is sound: its domains have values within the range of values, so that a bound can be
shifted by one, by an extent or by a gap, and differences of bounds fit the word.  Its propagation
comes to an end with no change left, its strategies answer, and what they have chosen can be
committed later, alternative by alternative.

The models are those that requests lead to.  A constraint or a strategy may be posted before all of
its variables are there, if only they exist by the time that somebody looks at them.
-/

namespace FiniteDomain

namespace Engine

/-- The engine with some more constraints, each of them waiting. -/
def postAll (e : Engine Constraint) (ps : List Posting) : Engine Constraint :=
  ps.foldl (fun e p => (e.add p.constraint).2) e

variable {e : Engine Constraint} {s : Store}

theorem postAll_append (e : Engine Constraint) (ps : List Posting) (p : Posting) :
    e.postAll (ps ++ [p]) = ((e.postAll ps).add p.constraint).2 := by
  unfold postAll
  rw [List.foldl_append]
  rfl

theorem propagators_postAll (e : Engine Constraint) (ps : List Posting) :
    (e.postAll ps).propagators = e.propagators ++ ps.map Posting.constraint := by
  induction ps generalizing e with
  | nil => simp [postAll]
  | cons p rest ih =>
      have hrest := ih (e.add p.constraint).2
      rw [propagators_add] at hrest
      rw [List.map_cons, List.append_cons]
      exact hrest

theorem Coherent.postAll (h : e.Coherent none s) {ps : List Posting}
    (hvars : ∀ p ∈ ps, ∀ x ∈ p.vars, s.Has x) : (e.postAll ps).Coherent none s := by
  induction ps generalizing e with
  | nil => exact h
  | cons p rest ih =>
      have hadded := h.add p.admissible (hvars p List.mem_cons_self)
      exact ih hadded fun q hq => hvars q (List.mem_cons_of_mem p hq)

end Engine

namespace Model

/-- The variables that the constraints of a model mention exist. -/
def Mentions (m : Model) : Prop :=
  ∀ p ∈ m.engine.propagators, ∀ x ∈ Propagator.watched p, m.store.Has x

instance (m : Model) : Decidable m.Mentions :=
  inferInstanceAs (Decidable (∀ p ∈ m.engine.propagators, ∀ x ∈ Propagator.watched p, m.store.Has x))

/-- The models that requests lead to.  Constraints are propagated once their variables exist. -/
inductive Assembled : Model → Prop
  | empty : Assembled Node.empty
  | newVar {m : Model} (hm : Assembled m) (lb ub : Int) : Assembled (m.newVar lb ub).2
  | narrow {m n : Model} {x : Var} {lb ub : Int} {reply : Except Wipeout Bool}
      (hm : Assembled m) (h : m.update (Update.narrow x lb ub) = .ok (reply, n)) : Assembled n
  | post {m : Model} (hm : Assembled m) (p : Posting) : Assembled (m.post p.constraint).2
  | branch {m : Model} (hm : Assembled m) (b : Strategy) (hfresh : b.IsFresh) :
      Assembled (m.branch b).2
  | choose {m n : Model} {choice : Option Choice} (hm : Assembled m)
      (h : m.choose = .ok (choice, n)) : Assembled n
  | commit {m n : Model} {c : Choice} {alternative : Nat} {reply : Except Wipeout Unit}
      (hm : Assembled m) (h : m.commit c alternative = .ok (reply, n)) : Assembled n
  | propagate {m n : Model} {failure : Option Wipeout} {events : List Event} (hm : Assembled m)
      (hvars : m.Mentions) (h : m.propagate = .ok (failure, events, n)) : Assembled n

/-- The model is sound but for the constraints that were posted last, which have not run. -/
def AlmostSound (m : Model) : Prop :=
  ∃ (ps late : List Posting) (e : Engine Constraint),
    Sound ps { m with engine := e } ∧ m.engine = e.postAll late

variable {ps : List Posting} {m n : Model}

theorem Sound.almostSound (h : m.Sound ps) : m.AlmostSound :=
  ⟨ps, [], m.engine, h, rfl⟩

/-- When the variables of all constraints exist, nothing is left out. -/
theorem AlmostSound.exists_sound (h : m.AlmostSound) (hvars : m.Mentions) :
    ∃ ps, m.Sound ps := by
  obtain ⟨ps, late, e, hsound, hengine⟩ := h
  have hpropagators : m.engine.propagators = (ps ++ late).map Posting.constraint := by
    rw [hengine, Engine.propagators_postAll, hsound.propagators, List.map_append]
  refine ⟨ps ++ late, hsound.consistent, ?_, hpropagators, ?_⟩
  · rw [hengine]
    apply hsound.coherent.postAll
    intro p hp
    apply hvars
    rw [hpropagators]
    exact List.mem_map_of_mem (List.mem_append_right ps hp)
  · exact ⟨hsound.remembers.active, hsound.remembers.strategies, hsound.remembers.done⟩

theorem AlmostSound.afterNarrowing (h : m.AlmostSound) {t : Store} (hst : m.store.Narrowing t)
    (ht : t.failure = none) : AlmostSound { m with store := t } := by
  obtain ⟨ps, late, e, hsound, hengine⟩ := h
  exact ⟨ps, late, e, hsound.afterNarrowing hst ht, hengine⟩

theorem AlmostSound.afterChoose (h : m.AlmostSound) {choice : Option Choice}
    (hchoose : m.choose = .ok (choice, n)) : n.AlmostSound := by
  obtain ⟨ps, late, e, hsound, hengine⟩ := h
  have hremembers : m.Remembers :=
    ⟨hsound.remembers.active, hsound.remembers.strategies, hsound.remembers.done⟩
  have hchooses := hremembers.chooses hchoose
  refine ⟨ps, late, e, ⟨?_, ?_, hsound.propagators, ?_⟩, hchooses.engine.trans hengine⟩
  · dsimp only
    rw [hchooses.store]
    exact hsound.consistent
  · dsimp only
    rw [hchooses.store]
    exact hsound.coherent
  · exact ⟨hchooses.remembers.active, hchooses.remembers.strategies, hchooses.remembers.done⟩

theorem AlmostSound.afterNewVar (h : m.AlmostSound) {lb ub : Int}
    (hfine : (m.newVar lb ub).2.store.failure = none) : AlmostSound (m.newVar lb ub).2 := by
  obtain ⟨ps, late, e, hsound, hengine⟩ := h
  exact ⟨ps, late, e, hsound.afterNewVar hfine, hengine⟩

theorem AlmostSound.afterPost (h : m.AlmostSound) (hfine : m.store.failure = none) (p : Posting) :
    AlmostSound (m.post p.constraint).2 := by
  obtain ⟨ps, late, e, hsound, hengine⟩ := h
  rw [post_eq hfine]
  refine ⟨ps, late ++ [p], e, hsound, ?_⟩
  rw [Engine.postAll_append, ← hengine]

theorem AlmostSound.afterBranch (h : m.AlmostSound) (hfine : m.store.failure = none)
    {b : Strategy} (hfresh : b.IsFresh) : AlmostSound (m.branch b).2 := by
  obtain ⟨ps, late, e, hsound, hengine⟩ := h
  have hadded := hsound.afterBranch hfresh
  rw [branch_eq hsound.consistent.failure] at hadded
  rw [branch_eq hfine]
  exact ⟨ps, late, e, hadded, hengine⟩

/-- Whatever was requested, the model is failed or almost sound. -/
theorem Assembled.almostSound (h : m.Assembled) (hfine : m.store.failure = none) :
    m.AlmostSound := by
  induction h with
  | empty => exact sound_empty.almostSound
  | newVar _ lb ub ih =>
      rcases newVar_cases _ lb ub with ⟨-, hfailed⟩ | ⟨-, heq⟩
      · exact absurd hfine hfailed
      · have hold := hfine
        rw [heq] at hold
        exact (ih hold).afterNewVar hfine
  | narrow _ hupdate ih =>
      obtain ⟨hnarrow, heq⟩ := Node.update_eq_ok hupdate
      have hst := Store.Narrowing.refl.narrow hnarrow
      rw [heq]
      exact (ih (hst.failure_eq_none hfine)).afterNarrowing hst hfine
  | @post m _ p ih =>
      have hold : m.store.failure = none := by
        unfold Node.post at hfine
        split at hfine <;> exact hfine
      exact (ih hold).afterPost hold p
  | @branch m _ b hfresh ih =>
      have hold : m.store.failure = none := by
        unfold Node.branch at hfine
        split at hfine <;> exact hfine
      exact (ih hold).afterBranch hold hfresh
  | choose _ hchoose ih => exact (ih (failure_eq_none_of_choose hchoose)).afterChoose hchoose
  | commit _ hcommit ih =>
      obtain ⟨-, heq, b, x, d, changed, -, -, hnarrow, -⟩ := commit_eq_ok hcommit
      have hst := Store.Narrowing.refl.narrow hnarrow
      rw [heq]
      exact (ih (hst.failure_eq_none hfine)).afterNarrowing hst hfine
  | propagate _ hvars hpropagate ih =>
      have hold := failure_eq_none_of_propagate hpropagate (Or.inr hfine)
      obtain ⟨ps, hsound⟩ := (ih hold).exists_sound hvars
      obtain ⟨r, hr, hreaches⟩ := hsound.propagate_eq_ok
      rw [hpropagate, Except.ok.injEq, Prod.mk.injEq, Prod.mk.injEq] at hr
      obtain ⟨-, -, rfl⟩ := hr
      exact (hsound.afterPropagate hreaches (hreaches.failure.symm.trans hfine)).almostSound

/-- A model whose variables are all there is failed or sound. -/
theorem Assembled.exists_sound (h : m.Assembled) (hvars : m.Mentions) :
    ∃ ps, m.store.failure = none → m.Sound ps := by
  cases hfailure : m.store.failure with
  | some w => exact ⟨[], fun hfine => by contradiction⟩
  | none =>
      obtain ⟨ps, hsound⟩ := (h.almostSound hfailure).exists_sound hvars
      exact ⟨ps, fun _ => hsound⟩

/-- Two variables that take all values that there are, to be bisected, of which one has to exceed the
other by as much as a word can say.  The constraint is posted before the second variable is there. -/
def widest : Model :=
  let (x, m) := (Node.empty : Model).newVar Word.minValue Word.maxValue
  let m : Model := (Model.postPrecedence m x Word.greatest ⟨1⟩).2
  let (y, m) := m.newVar Word.minValue Word.maxValue
  (m.branch (.bisection (.ofVars [x, y]))).2

theorem assembled_widest : widest.Assembled := by
  have hvar := Assembled.empty.newVar Word.minValue Word.maxValue
  have hposted := hvar.post (.precedence ⟨0⟩ Word.greatest ⟨1⟩)
  exact (hposted.newVar Word.minValue Word.maxValue).branch (.bisection (.ofVars [⟨0⟩, ⟨1⟩])) rfl

/-- The items of a strip, the positions of which are cut into slices of two values. -/
def strewn : Slicing :=
  ⟨#[⟨⟨0⟩, .clamp 2, .clamp 1⟩, ⟨⟨1⟩, .clamp 3, .clamp 1⟩], 0.5, 1, 0⟩

/-- Two items in a strip, the second one after the first.  Their positions are sliced, then bisected,
and at last labelled. -/
def strip : Model :=
  let (x, m) := (Node.empty : Model).newVar 0 5
  let (y, m) := m.newVar 0 5
  let (z, m) := m.newVar 0 0
  let items : List Rectangle := [⟨x, .clamp 2, z, .clamp 1⟩, ⟨y, .clamp 3, z, .clamp 1⟩]
  let m : Model := (m.post (Posting.nonOverlap items).constraint).2
  let m : Model := (m.post (Posting.disequality x y).constraint).2
  let m : Model := (m.post (Posting.precedence x 1 y).constraint).2
  let m : Model := (m.branch (.slicing strewn)).2
  let m : Model := (m.branch (.bisection (.ofVars [x, y]))).2
  (m.branch (.labelling (.ascending [x, y]))).2

theorem assembled_strip : strip.Assembled := by
  have hvars := ((Assembled.empty.newVar 0 5).newVar 0 5).newVar 0 0
  have hitems := hvars.post
    (.nonOverlap [⟨⟨0⟩, .clamp 2, ⟨2⟩, .clamp 1⟩, ⟨⟨1⟩, .clamp 3, ⟨2⟩, .clamp 1⟩])
  have hposted := (hitems.post (.disequality ⟨0⟩ ⟨1⟩)).post (.precedence ⟨0⟩ 1 ⟨1⟩)
  have hbranched := (hposted.branch (.slicing strewn) rfl).branch (.bisection (.ofVars [⟨0⟩, ⟨1⟩])) rfl
  exact hbranched.branch (.labelling (.ascending [⟨0⟩, ⟨1⟩])) rfl

end Model

namespace Search

variable {root n : Model} {ps : List Posting} {s t : Search Constraint Strategy}
  {sol : Option Solution} {sols : List Solution}

/-- Nothing that the search holds can make its next step fault. -/
structure Safe (root : Model) (ps : List Posting) (s : Search Constraint Strategy) : Prop where
  explores : Explores root ps s
  offers : ∀ top ∈ s.stack, top.node.Offers top.choice
  next_lt : ∀ top ∈ s.stack, top.next < top.choice.alternatives
  has : ∀ objective, s.objective = some objective → root.store.Has objective.var
  best : ∀ value, s.best = some value → Word.minValue ≤ value ∧ value ≤ Word.maxValue

section Visiting

/-- The bound that asks for a better value fits the word. -/
theorem exists_improveOn {objective : Objective} {best : Int} {s : Store}
    (hbest : Word.minValue ≤ best ∧ best ≤ Word.maxValue)
    (hx : s.failure = none → s.Has objective.var) :
    ∃ r, (objective.improveOn best).apply s = .ok r := by
  simp only [Word.minValue, Word.maxValue] at hbest
  cases objective with
  | minimize x =>
      have hfit : Word.fit (best - 1) = .ok (best - 1) := by
        apply Word.fit_of_mem <;> simp only [Word.least, Word.greatest] <;> omega
      unfold Objective.improveOn
      rw [Update.apply_bind, Update.apply_read, hfit]
      exact Store.exists_narrow hx _ _
  | maximize x =>
      have hfit : Word.fit (best + 1) = .ok (best + 1) := by
        apply Word.fit_of_mem <;> simp only [Word.least, Word.greatest] <;> omega
      unfold Objective.improveOn
      rw [Update.apply_bind, Update.apply_read, hfit]
      exact Store.exists_narrow hx _ _

theorem Safe.exists_constrain (hs : Safe root ps s)
    (hn : n.store.failure = none → Model.Descends root ps n) : ∃ r, s.constrain n = .ok r := by
  unfold constrain
  split
  · rename_i objective best hobjective hbest
    have hx : n.store.failure = none → n.store.Has objective.var := fun hfine =>
      (hn hfine).below.has_iff.mpr (hs.has objective hobjective)
    obtain ⟨⟨reply, store⟩, hr⟩ := exists_improveOn (hs.best best hbest) hx
    unfold Node.update
    rw [hr]
    cases reply with
    | error w => exact ⟨_, rfl⟩
    | ok changed => exact ⟨_, rfl⟩
  · exact ⟨_, rfl⟩

/-- The value of the objective in a sound store is within the range of values. -/
theorem exists_bestIn {objective : Objective} {s : Store} (hs : s.Consistent)
    (hx : s.Has objective.var) :
    ∃ value, objective.bestIn s = .ok value ∧ Word.minValue ≤ value ∧ value ≤ Word.maxValue := by
  have hleast := hs.least objective.var
  have hview := hs.view objective.var
  have hgreatest := hs.greatest objective.var
  cases objective with
  | minimize x => exact ⟨_, Store.lower_of_has hx, hleast, hview.trans hgreatest⟩
  | maximize x => exact ⟨_, Store.upper_of_has hx, hleast.trans hview, hgreatest⟩

theorem exists_accept
    (hhas : ∀ objective, s.objective = some objective → root.store.Has objective.var)
    (hn : Model.Descends root ps n) : ∃ r, s.accept n = .ok r := by
  unfold accept
  cases hobjective : s.objective with
  | none => exact ⟨_, rfl⟩
  | some objective =>
      obtain ⟨value, hvalue, -⟩ := exists_bestIn hn.sound.consistent
        (hn.below.has_iff.mpr (hhas objective hobjective))
      dsimp only
      rw [hvalue]
      exact ⟨_, rfl⟩

theorem knows_of_descends (hroot : root.Knows) (hn : Model.Descends root ps n) : n.Knows := by
  intro b hb
  rw [hn.policies] at hb
  obtain ⟨hsplitting, hvars⟩ := hroot b hb
  exact ⟨hsplitting, fun x hx => hn.below.has_iff.mpr (hvars x hx)⟩

/-- A node that is failed or descends from the root is visited without a fault. -/
theorem Safe.exists_visit (hroot : root.Knows) (hs : Safe root ps s)
    (hn : n.store.failure = none → Model.Descends root ps n) : ∃ o, s.visit n = .ok o := by
  obtain ⟨⟨unimproved, n₁⟩, hconstrain⟩ := hs.exists_constrain hn
  unfold visit
  simp only [hconstrain, Crash.after, bind, Except.bind]
  cases unimproved with
  | some w => exact ⟨_, rfl⟩
  | none =>
      obtain ⟨hst, heq⟩ := narrowing_of_constrain hconstrain
      cases hfailure : n₁.store.failure with
      | some w =>
          simp only [Model.propagate_of_failure hfailure]
          exact ⟨_, rfl⟩
      | none =>
          have hdescends : Model.Descends root ps n₁ := by
            rw [heq]
            exact (hn (hst.failure_eq_none hfailure)).afterNarrowing hst hfailure
          obtain ⟨r, hr, hreaches⟩ := hdescends.sound.propagate_eq_ok
          simp only [hr]
          cases hnone : r.failure with
          | some w => exact ⟨_, rfl⟩
          | none =>
              have hreached := hdescends.afterPropagate hreaches hnone
              obtain ⟨⟨choice, n₃⟩, hchoose⟩ := Node.exists_choose hreached.sound.remembers
                hreached.sound.consistent (knows_of_descends hroot hreached)
              simp only [hchoose]
              cases choice with
              | some c => exact ⟨_, rfl⟩
              | none =>
                  have hchosen := hreached.afterChoose hchoose
                  obtain ⟨⟨u, event⟩, haccept⟩ :
                      ∃ a, (s.charge n₁.engine r.engine).accept n₃ = .ok a :=
                    exists_accept hs.has hchosen
                  simp only [charge] at haccept
                  simp only [haccept]
                  exact ⟨_, rfl⟩

theorem Safe.takeNext {top : OpenNode Constraint Strategy}
    {below : List (OpenNode Constraint Strategy)} (hs : Safe root ps s)
    (hstack : s.stack = top :: below) : Safe root ps { s with stack := remainder top below } where
  explores := hs.explores.takeNext hstack
  offers other hother := by
    have hoffers := hs.offers
    rw [hstack] at hoffers
    rcases mem_remainder hother with ⟨hnode, hchoice⟩ | hbelow
    · rw [hnode, hchoice]
      exact hoffers top List.mem_cons_self
    · exact hoffers other (List.mem_cons_of_mem _ hbelow)
  next_lt other hother := by
    have hnext := hs.next_lt
    rw [hstack] at hnext
    dsimp only at hother
    unfold remainder at hother
    split at hother
    · rename_i hlt
      rcases List.mem_cons.mp hother with rfl | hbelow
      · exact hlt
      · exact hnext other (List.mem_cons_of_mem _ hbelow)
    · exact hnext other (List.mem_cons_of_mem _ hother)
  has := hs.has
  best := hs.best

theorem Safe.exists_descend (hroot : root.Knows) (hs : Safe root ps s)
    {top : OpenNode Constraint Strategy} {below : List (OpenNode Constraint Strategy)}
    (hstack : s.stack = top :: below) : ∃ o, s.descend top below = .ok o := by
  have hmem : top ∈ s.stack := by
    rw [hstack]
    exact List.mem_cons_self
  have hoffers := hs.offers top hmem
  have hlt := hs.next_lt top hmem
  have hsafe := hs.takeNext hstack
  obtain ⟨text, htext⟩ := hoffers.exists_describe top.next hlt
  obtain ⟨⟨reply, child⟩, hcommit⟩ := hoffers.exists_commit top.next hlt
  unfold descend
  extract_lets alternative stack rest commits
  have hcommitted : ∀ taken, ∃ o, commits taken = .ok o := by
    intro taken
    unfold commits
    simp only [alternative, hcommit, Crash.after, bind, Except.bind]
    cases reply with
    | error w => exact ⟨_, rfl⟩
    | ok u =>
        obtain ⟨o, ho⟩ := hsafe.exists_visit hroot fun hfine =>
          (hs.explores.descends top hmem).afterCommit hcommit hfine
        change ∃ o, Outcome.mapEvents _ (rest.visit child) = .ok o
        rw [show rest.visit child = .ok o from ho]
        exact ⟨_, rfl⟩
  split
  · obtain ⟨o, ho⟩ := hcommitted [.committed text stack.length]
    refine ⟨o, ?_⟩
    simp only [alternative, htext]
    exact ho
  · exact hcommitted []

/-- A safe search takes its next step without a fault. -/
theorem Safe.exists_step (hsound : root.store.failure = none → root.Sound ps)
    (hroot : root.Knows) (hs : Safe root ps s) : ∃ o, s.step = .ok o := by
  have hexplore : ∃ o, s.explore = .ok o := by
    unfold explore
    split
    · exact ⟨_, rfl⟩
    · split
      · exact ⟨_, rfl⟩
      · split
        · rename_i n hn
          have heq := hs.explores.untouched n hn
          have hsafe : Safe root ps { s with root := none } :=
            ⟨⟨by simp, hs.explores.descends⟩, hs.offers, hs.next_lt, hs.has, hs.best⟩
          apply hsafe.exists_visit hroot
          rw [heq]
          exact fun hfine => (hsound hfine).descends
        · exact ⟨_, rfl⟩
        · rename_i hstack
          exact hs.exists_descend hroot hstack
  obtain ⟨o, ho⟩ := hexplore
  unfold step
  rw [ho]
  exact ⟨_, rfl⟩

end Visiting

section Stepping

/-- A visit leaves a safe search: what was chosen can be committed, and the best value is one of a
sound store. -/
theorem Safe.afterVisit (hroot : root.Knows) (hs : Safe root ps s)
    (hn : n.store.failure = none → Model.Descends root ps n) (h : Visit s n t sol) :
    Safe root ps t := by
  have hexplores := (hs.explores.afterVisit hn h).1
  cases h with
  | unimproved => exact ⟨hexplores, hs.offers, hs.next_lt, hs.has, hs.best⟩
  | failed => exact ⟨hexplores, hs.offers, hs.next_lt, hs.has, hs.best⟩
  | @split n₁ n₂ n₃ events c counters hconstrain hpropagate hchoose =>
      obtain ⟨hn₁, r, hreaches, hnone, rfl⟩ := propagate_of_constrain hn hconstrain hpropagate
      have hreached := hn₁.afterPropagate hreaches hnone
      refine ⟨hexplores, ?_, ?_, hs.has, hs.best⟩
      · intro top htop
        rcases List.mem_cons.mp htop with rfl | htop
        · exact Node.offers_of_choose hreached.sound.remembers hreached.sound.consistent
            (knows_of_descends hroot hreached) hchoose
        · exact hs.offers top htop
      · intro top htop
        rcases List.mem_cons.mp htop with rfl | htop
        · exact c.alternatives_pos
        · exact hs.next_lt top htop
  | @solved n₁ n₂ n₃ events best counters hconstrain hpropagate hchoose hbest =>
      obtain ⟨hn₁, r, hreaches, hnone, rfl⟩ := propagate_of_constrain hn hconstrain hpropagate
      have hchosen := (hn₁.afterPropagate hreaches hnone).afterChoose hchoose
      refine ⟨hexplores, hs.offers, hs.next_lt, hs.has, ?_⟩
      intro value hvalue
      cases hobjective : s.objective with
      | none =>
          unfold bestAfter at hbest
          rw [hobjective] at hbest
          obtain rfl := Except.ok.inj hbest
          exact hs.best value hvalue
      | some objective =>
          obtain ⟨value', hin, rfl⟩ := bestAfter_eq_ok hobjective hbest
          obtain ⟨value'', hin', hrange⟩ := exists_bestIn hchosen.sound.consistent
            (hchosen.below.has_iff.mpr (hs.has objective hobjective))
          obtain rfl := Except.ok.inj (hin.symm.trans hin')
          obtain rfl := Option.some.inj hvalue
          exact hrange

theorem Safe.afterStep (hsound : root.store.failure = none → root.Sound ps) (hroot : root.Knows)
    (hs : Safe root ps s) (h : Step s t sol) : Safe root ps t := by
  cases h with
  | finished => exact hs
  | interrupted => exact ⟨⟨hs.explores.untouched, hs.explores.descends⟩, hs.offers, hs.next_lt,
      hs.has, hs.best⟩
  | exhausted => exact ⟨⟨hs.explores.untouched, hs.explores.descends⟩, hs.offers, hs.next_lt,
      hs.has, hs.best⟩
  | root hprogress hsome hvisit =>
      have heq := hs.explores.untouched _ hsome
      have htaken : Safe root ps { s with root := none } :=
        ⟨⟨by simp, hs.explores.descends⟩, hs.offers, hs.next_lt, hs.has, hs.best⟩
      apply htaken.afterVisit hroot _ hvisit
      rw [heq]
      exact fun hfine => (hsound hfine).descends
  | dropped hprogress hnone hstack hcommit =>
      have htaken := hs.takeNext hstack
      exact ⟨⟨htaken.explores.untouched, htaken.explores.descends⟩, htaken.offers, htaken.next_lt,
        htaken.has, htaken.best⟩
  | child hprogress hnone hstack hcommit hvisit =>
      have htop := hs.explores.descends _ (hstack ▸ List.mem_cons_self)
      apply (hs.takeNext hstack).afterVisit hroot _ hvisit
      exact fun hfine => htop.afterCommit hcommit hfine

theorem Safe.afterSteps (hsound : root.store.failure = none → root.Sound ps) (hroot : root.Knows)
    (hs : Safe root ps s) (h : s.Steps sols t) : Safe root ps t := by
  induction h with
  | refl => exact hs
  | step _ hstep ih => exact ih.afterStep hsound hroot hstep

/-- A safe search runs without a fault, however long. -/
theorem Safe.exists_run (hsound : root.store.failure = none → root.Sound ps) (hroot : root.Knows)
    (hs : Safe root ps s) (fuel : Nat) (events : Array Event) : ∃ o, s.run fuel events = .ok o := by
  induction fuel generalizing s events with
  | zero => exact ⟨_, rfl⟩
  | succ fuel ih =>
      unfold run
      split
      · exact ⟨_, rfl⟩
      · obtain ⟨o, ho⟩ := hs.exists_step hsound hroot
        rw [ho]
        dsimp only
        split
        · exact ⟨_, rfl⟩
        · exact ih (hs.afterStep hsound hroot (step_of_step_eq_ok ho)) _

end Stepping

/-- Before its first step a search holds nothing but its root. -/
theorem safe_start {budget : Budget} {verbosity : Level} (hs : s = enumerate root budget verbosity ∨
      ∃ objective, root.store.Has objective.var ∧ s = optimize root objective budget verbosity) :
    Safe root ps s := by
  have hstart : s.root = some root ∧ s.stack = [] ∧ s.best = none ∧
      ∀ objective, s.objective = some objective → root.store.Has objective.var := by
    rcases hs with rfl | ⟨objective, hhas, rfl⟩
    · exact ⟨rfl, rfl, rfl, fun other hother => by contradiction⟩
    · refine ⟨rfl, rfl, rfl, ?_⟩
      intro other hother
      rw [← Option.some.inj hother]
      exact hhas
  obtain ⟨hroot, hstack, hbest, hhas⟩ := hstart
  refine ⟨⟨?_, ?_⟩, ?_, ?_, hhas, ?_⟩
  · intro n hn
    rw [hroot] at hn
    exact (Option.some.inj hn).symm
  · simp [hstack]
  · simp [hstack]
  · simp [hstack]
  · simp [hbest]

/-- Whatever model was assembled, with whatever bounds, gaps and extents, and however often the
search was called before, the next call ends without a fault. -/
theorem next_never_faults {root : Model} {s t : Search Constraint Strategy} {budget : Budget}
    {verbosity : Level} {sols : List Solution} (hroot : root.Assembled) (hmentions : root.Mentions)
    (hbranchers : ∀ b ∈ root.branchers, b.IsSplitting ∧ ∀ x ∈ b.vars, root.store.Has x)
    (hs : s = enumerate root budget verbosity ∨
      ∃ objective, root.store.Has objective.var ∧ s = optimize root objective budget verbosity)
    (hreturns : s.Returns sols t) (fuel : Nat) : ∃ o, t.next fuel = .ok o := by
  have hknows : root.Knows := by
    intro b hb
    obtain ⟨b', hb', rfl⟩ := List.mem_map.mp hb
    rw [Strategy.isSplitting_rewound, Strategy.vars_rewound]
    exact hbranchers b' (Array.mem_toList_iff.mp hb')
  obtain ⟨ps, hsound⟩ : ∃ ps, root.store.failure = none → root.Sound ps := by
    cases hfailure : root.store.failure with
    | some w => exact ⟨[], by simp⟩
    | none =>
        obtain ⟨ps, hps⟩ := (hroot.almostSound hfailure).exists_sound hmentions
        exact ⟨ps, fun _ => hps⟩
  have hsafe : Safe root ps s := by
    rcases hs with rfl | ⟨objective, hhas, rfl⟩
    · exact ⟨⟨fun n hn => (Option.some.inj hn).symm, by simp [enumerate]⟩, by simp [enumerate],
        by simp [enumerate], by simp [enumerate], by simp [enumerate]⟩
    · refine ⟨⟨fun n hn => (Option.some.inj hn).symm, by simp [optimize, enumerate]⟩,
        by simp [optimize, enumerate], by simp [optimize, enumerate], ?_,
        by simp [optimize, enumerate]⟩
      intro other hother
      obtain rfl := Option.some.inj hother
      exact hhas
  exact (hsafe.afterSteps hsound hknows hreturns.steps).exists_run hsound hknows fuel #[]

theorem next_never_faults_widest :
    ∃ o, (optimize Model.widest (.maximize ⟨0⟩) .unlimited .trace).next 100 = .ok o :=
  next_never_faults Model.assembled_widest (by decide) (by decide)
    (Or.inr ⟨.maximize ⟨0⟩, by decide, rfl⟩) .start 100

end Search

end FiniteDomain
