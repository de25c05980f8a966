import FiniteDomain.Proofs.Restoring
import FiniteDomain.Proofs.Rounds

/-!
# Failures that stick

A failure shows in three places: in the reply of an update, in the record of the store, and in the answer
of the propagation that the update was a part of.  An update on a store that has not failed replies with
a failure if, and only if, the store has recorded this failure by the end of it, since the failure comes
from the one narrowing or wipeout that nothing follows.  A propagation passes the reply on, and both its
ends leave nobody waiting.

A failed store refuses every update with the failure that it has recorded.  So nothing that is requested
afterwards changes the failure, or a domain that was there.
-/

namespace FiniteDomain

namespace Update

variable {α β : Type}

/-- On a store that has not failed, the reply tells whether it has failed by the end, and how. -/
def Reports (u : Update α) : Prop :=
  ∀ (s t : Store) (reply : Except Wipeout α), s.failure = none → u.apply s = .ok (reply, t) →
    Agrees reply t

theorem reports_pure (a : α) : (pure a : Update α).Reports := by
  intro s t reply hs h
  obtain ⟨rfl, rfl⟩ := Prod.mk.inj (Except.ok.inj h)
  exact hs

theorem Reports.bind {u : Update α} {k : α → Update β} (hu : u.Reports)
    (hk : ∀ a, (k a).Reports) : (u >>= k).Reports := by
  intro s t reply hs h
  rw [apply_bind] at h
  split at h
  · rename_i a v hfirst
    exact hk a v t reply (hu s v _ hs hfirst) h
  · rename_i w v hfirst
    obtain ⟨rfl, rfl⟩ := Prod.mk.inj (Except.ok.inj h)
    exact hu s _ _ hs hfirst
  · contradiction

theorem reports_read (f : Store → Except Fault α) : (read f).Reports := by
  intro s t reply hs h
  rw [apply_read] at h
  cases hf : f s with
  | error fault =>
      rw [hf] at h
      contradiction
  | ok a =>
      rw [hf] at h
      obtain ⟨rfl, rfl⟩ := Prod.mk.inj (Except.ok.inj h)
      exact hs

theorem reports_narrow (x : Var) (lb ub : Int) : (narrow x lb ub).Reports := by
  intro s t reply hs h
  rcases Store.narrow_cases h with ⟨w, rfl, -, hfailure⟩ | ⟨-, -, -, rfl, rfl⟩
  · exact hfailure
  · rw [Agrees, Store.failure_cut]
    exact hs

theorem reports_wipeOut (x : Var) : (wipeOut x : Update α).Reports := by
  intro s t reply hs h
  unfold wipeOut at h
  rw [apply_ofFunction] at h
  cases hwipe : s.wipeOut x with
  | error fault =>
      rw [hwipe] at h
      contradiction
  | ok r =>
      rw [hwipe] at h
      obtain ⟨rfl, rfl⟩ := Prod.mk.inj (Except.ok.inj h)
      have hfail := Store.wipeOut_eq_ok (t := r.2) (w := r.1) hwipe
      rw [Store.fail_of_failure_eq_none hs] at hfail
      exact congrArg Store.failure hfail

/-- A failure is replied when it is recorded, as nothing in an update looks for it afterwards. -/
theorem Built.reports {u : Update α} (hu : u.Built) : u.Reports := by
  induction hu with
  | pure a => exact reports_pure a
  | read f => exact reports_read f
  | fault f =>
      intro s t reply hs h
      contradiction
  | narrow x lb ub => exact reports_narrow x lb ub
  | wipeOut x => exact reports_wipeOut x
  | bind _ _ ihu ihk => exact ihu.bind ihk

end Update

namespace Engine

variable {P : Type} [Propagator P] {e f : Engine P} {s t : Store} {events events' : List Event}
  {n : Nat} {outcome : Except Crash (Propagation P)} {r : Propagation P}

theorem failure_of_round (hreports : ∀ p : P, (Propagator.propagate p).Reports)
    (hs : s.failure = none) (h : e.round s events = .goesOn f t events') : t.failure = none := by
  cases acts_of_round h with
  | skips _ => exact hs
  | runs _ happly _ _ _ _ => exact hreports _ _ _ _ hs happly

theorem failure_of_last (hreports : ∀ p : P, (Propagator.propagate p).Reports)
    (hs : s.failure = none) (h : e.round s events = .ends (.ok r)) :
    r.store.failure = r.failure := by
  cases acts_of_round h with
  | rests _ => exact hs
  | fails _ happly _ => exact hreports _ _ _ _ hs happly

theorem EndsIn.failure_eq (hreports : ∀ p : P, (Propagator.propagate p).Reports)
    (h : EndsIn n e s events outcome) (hs : s.failure = none) (hr : outcome = .ok r) :
    r.store.failure = r.failure := by
  induction h with
  | last hround => exact failure_of_last hreports hs (hr ▸ hround)
  | more hround _ ih => exact ih (failure_of_round hreports hs hround) hr

/-- Propagation answers with the failure that the store has recorded by the end. -/
theorem failure_of_propagate (hreports : ∀ p : P, (Propagator.propagate p).Reports)
    (h : e.propagate s = .ok r) : r.store.failure = r.failure := by
  cases propagates_of_propagate h with
  | refused hs => exact hs
  | settled hs _ hrounds => exact hrounds.failure_eq hreports hs rfl

end Engine

/-! ## Failed nodes -/

namespace Store

variable {s t : Store} {w : Wipeout}

theorem newVar_of_failure (hs : s.failure = some w) (lb ub : Int) :
    ∃ d, (s.newVar lb ub).2 = { s with domains := s.domains.push d } := by
  let d : Interval := ⟨max lb Word.minValue, min ub Word.maxValue⟩
  have hgrown : ({ s with domains := s.domains.push d } : Store).failure = some w := hs
  refine ⟨d, ?_⟩
  unfold newVar
  split
  · exact fail_of_failure hgrown _
  · rfl

theorem Shrinks.of_failure (h : s.Shrinks t) (hs : s.failure = some w) :
    t.failure = some w ∧ t.domains = s.domains := by
  induction h with
  | refl => exact ⟨hs, rfl⟩
  | narrowing _ hnarrowing ih => exact hnarrowing.eq_of_failure ih.1 ▸ ih
  | drain _ ih => exact ih

end Store

namespace Strategy

theorem range_rewound (b : Strategy) (c : Choice) (alternative : Nat) :
    b.rewound.range c alternative = b.range c alternative := by
  cases b <;> rfl

/-- The alternatives of a choice have ranges, also where its position has been wrapped. -/
theorem exists_range_of_choiceAt {b : Strategy} {s : Store} {id : BrancherId} {pos : Nat}
    {c : Choice} {alternative : Nat} (hs : s.Consistent) (hundecided : b.Undecided s pos)
    (h : b.choiceAt id s pos = .ok c) (hlt : alternative < c.alternatives) :
    ∃ r, b.range c alternative = .ok r := by
  have hwrapped := (Choice.wrapPos_le pos).trans_lt hundecided.lt_positions
  cases b with
  | labelling b =>
      obtain ⟨x, hx, hhas, -⟩ := hundecided
      rw [labelling_choiceAt_eq hx hhas] at h
      obtain rfl := Except.ok.inj h
      exact ⟨_, Labelling.range_binary (Table.fetch_of_lt hwrapped)
        ⟨hs.least x, hs.view x, hs.greatest x⟩ alternative⟩
  | bisection b =>
      obtain ⟨x, need, hx, hhas, -⟩ := hundecided
      rw [bisection_choiceAt_eq hx hhas] at h
      obtain rfl := Except.ok.inj h
      exact ⟨_, Bisection.range_binary (Table.fetch_of_lt hwrapped)
        ⟨hs.least x, hs.view x, hs.greatest x⟩ alternative⟩
  | slicing b =>
      obtain ⟨item, hitem, hhas, -⟩ := hundecided
      obtain ⟨-, hpos, -⟩ := slicing_of_choiceAt hs hitem hhas h
      let taken := b.items[Choice.wrapPos pos]
      refine ⟨(taken.position, Slicing.slice taken c alternative), ?_⟩
      change b.range c alternative = _
      unfold Slicing.range
      rw [decide_eq_true hlt, Fault.check_true, hpos, Table.fetch_of_lt hwrapped]
      rfl
  | caseSplit b =>
      obtain ⟨d, -, hpromised⟩ := Fault.bind_eq_ok_iff.mp h
      unfold Choice.promised at hpromised
      split at hpromised
      · obtain rfl := Except.ok.inj hpromised
        refine ⟨(b.var, b.cases[alternative]), ?_⟩
        change b.range alternative = _
        unfold CaseSplit.range
        rw [Table.fetch_of_lt hlt]
        rfl
      · contradiction

end Strategy

namespace Node

variable {P : Type} [Propagator P] {n m j j' k : Node P Strategy} {w : Wipeout}

/-- What is left of a failed node: its failure, and the domains of the variables that it had. -/
structure Preserves (n m : Node P Strategy) : Prop where
  failure : m.store.failure = n.store.failure
  has : ∀ x, n.store.Has x → m.store.Has x
  view : ∀ x, n.store.Has x → m.store.view x = n.store.view x

/-- A request may add variables to a failed node. -/
theorem Request.preserves (hnarrows : ∀ p : P, (Propagator.propagate p).Narrows)
    (h : n.Request m) (hn : n.store.failure = some w) : n.Preserves m := by
  rcases h.store hnarrows with ⟨lb, ub, hstore⟩ | hshrinks
  · obtain ⟨d, hpush⟩ := Store.newVar_of_failure hn lb ub
    rw [hpush] at hstore
    constructor
    · rw [hstore]
    · intro x hx
      rw [hstore]
      exact Store.has_push.mpr (Or.inl hx)
    · intro x hx
      rw [hstore]
      exact Store.view_push_of_has hx
  · obtain ⟨hfailure, hdomains⟩ := hshrinks.of_failure hn
    constructor
    · rw [hfailure, hn]
    · intro x hx
      unfold Store.Has
      rw [hdomains]
      exact hx
    · intro x _
      unfold Store.view
      rw [hdomains]

theorem Leads.preserves (hnarrows : ∀ p : P, (Propagator.propagate p).Narrows)
    (h : n.Leads m) (hn : n.store.failure = some w) : n.Preserves m := by
  induction h with
  | refl => exact ⟨rfl, fun _ hx => hx, fun _ _ => rfl⟩
  | tail _ hrequest ih =>
      have hlast := hrequest.preserves hnarrows (ih.failure.trans hn)
      refine ⟨hlast.failure.trans ih.failure, fun x hx => hlast.has x (ih.has x hx), ?_⟩
      intro x hx
      exact (hlast.view x (ih.has x hx)).trans (ih.view x hx)

end Node

namespace Model

variable {j j' k m n : Model} {w : Wipeout}

/-- The alternatives of a choice that was made before the failure are refused as well. -/
theorem commit_of_failure (hj : Node.empty.Leads j) {c : Choice}
    (hchoose : j.choose = .ok (some c, j')) (hjk : j.Leads k) (hk : k.store.failure = some w)
    {alternative : Nat} (hlt : alternative < c.alternatives) :
    k.commit c alternative = .ok (.error w, k) := by
  obtain ⟨hconsistent, hrecalls⟩ :=
    hj.recalls Constraint.narrows_propagate (failure_eq_none_of_choose hchoose)
  obtain ⟨b, pos, hb, hundecided, hchoice⟩ := Node.exists_choiceAt hconsistent hrecalls hchoose
  obtain ⟨⟨x, d⟩, hrange⟩ :=
    Strategy.exists_range_of_choiceAt hconsistent hundecided hchoice hlt
  -- the brancher may have been asked since, which makes no difference to the ranges
  have hpolicy := hjk.policy_kept hb
  rw [Node.getElem?_policies, Option.map_eq_some_iff] at hpolicy
  obtain ⟨b', hb', hsame⟩ := hpolicy
  rw [← Strategy.range_rewound, ← hsame, Strategy.range_rewound] at hrange
  unfold Node.commit
  rw [decide_eq_true hlt, Fault.check_true, Table.fetch_eq_ok_iff.mpr hb']
  simp only [bind, Except.bind]
  unfold Node.update
  rw [Strategy.commit_eq, Update.apply_bind, Update.apply_read, hrange]
  simp only [Except.map, Update.apply_discard, Update.narrow, Update.apply_ofFunction,
    Store.narrow_of_failed hk]
  rfl

/-- The answer of a propagation, and what it leaves. -/
structure Concluded (m : Model) (failure : Option Wipeout) (n : Model) : Prop where
  failure : n.store.failure = failure
  idle : n.engine.agenda.waiting = []
  shrinks : m.store.failure = none → ∀ x, m.store.Has x →
    n.store.Has x ∧ (n.store.view x).lb ≤ (n.store.view x).ub ∧ n.store.view x ≤ m.store.view x

/-- What comes of a failed model later on, and what it says to further requests. -/
structure Stuck (w : Wipeout) (n k : Model) : Prop where
  failure : k.store.failure = some w
  domains : ∀ x, n.store.Has x → k.store.Has x ∧ k.store.view x = n.store.view x
  propagate : k.propagate = .ok (some w, [], { k with engine := k.engine.clearAgenda })
  narrow : ∀ x lb ub, k.update (Update.narrow x lb ub) = .ok (.error w, k)
  commit : ∀ (j j' : Model) (c : Choice), Node.empty.Leads j → j.choose = .ok (some c, j') →
    j.Leads k → ∀ alternative < c.alternatives, k.commit c alternative = .ok (.error w, k)
  post : ∀ p, k.post p = (none, k)
  branch : ∀ b, k.branch b = (none, k)

theorem stuck_of_leads (hn : n.store.failure = some w) (h : n.Leads k) : Stuck w n k := by
  have hpreserves := h.preserves Constraint.narrows_propagate hn
  have hk := hpreserves.failure.trans hn
  have hfailed : k.isFailed = true := by
    unfold Node.isFailed Store.isFailed
    rw [hk]
    rfl
  constructor
  · exact hk
  · exact fun x hx => ⟨hpreserves.has x hx, hpreserves.view x hx⟩
  · exact propagate_of_failure hk
  · intro x lb ub
    unfold Node.update
    rw [Update.narrow, Update.apply_ofFunction, Store.narrow_of_failed hk]
    rfl
  · intro j j' c hj hchoose hjk alternative hlt
    exact commit_of_failure hj hchoose hjk hk hlt
  · intro p
    unfold Node.post
    rw [if_pos hfailed]
  · intro b
    unfold Node.branch
    rw [if_pos hfailed]

theorem concluded_of_propagate (hm : Node.empty.Leads m) {failure : Option Wipeout}
    {events : List Event} (h : m.propagate = .ok (failure, events, n)) : m.Concluded failure n := by
  obtain ⟨r, hr, rfl, -, rfl⟩ := Node.propagate_eq_ok h
  have hfailure := Engine.failure_of_propagate (fun p => p.built_propagate.reports) hr
  have hleaves := Engine.propagate_leaves hr
  have hshrinks := Engine.propagate_shrinks Constraint.narrows_propagate hr
  have hbelow := Store.Below.of_shrinks hshrinks
  refine ⟨hfailure, hleaves.idle, ?_⟩
  intro hfine x hx
  obtain ⟨hconsistent, -⟩ := hm.recalls Constraint.narrows_propagate hfine
  exact ⟨hbelow.has_iff.mpr hx, hshrinks.lb_le_ub (hconsistent.view x), hbelow.view x⟩

/-- Propagation gives an answer whenever the variables of all constraints exist.  It is the failure that
is recorded by then, if there is one, and with a failure the model is stuck. -/
theorem propagate_sticks (hm : Node.empty.Leads m) :
    (m.Assembled → m.Mentions → ∃ r, m.propagate = .ok r) ∧
      ∀ failure events n, m.propagate = .ok (failure, events, n) →
        m.Concluded failure n ∧ ∀ w, failure = some w → ∀ k, n.Leads k → Stuck w n k := by
  constructor
  · intro hassembled hmentions
    cases hfailure : m.store.failure with
    | some w => exact ⟨_, propagate_of_failure hfailure⟩
    | none =>
        obtain ⟨ps, hsound⟩ := hassembled.exists_sound hmentions
        obtain ⟨r, hr, -⟩ := (hsound hfailure).propagate_eq_ok
        exact ⟨_, hr⟩
  · intro failure events n h
    have hconcluded := concluded_of_propagate hm h
    refine ⟨hconcluded, ?_⟩
    rintro w rfl k hk
    exact stuck_of_leads hconcluded.failure hk

/-- Two squares that have no room for both of them, behind a precedence that has room. -/
def cramped : Model :=
  let (x, m) := (Node.empty : Model).newVar 0 1
  let (y, m) := m.newVar 0 1
  let (z, m) := m.newVar 0 9
  let m : Model := (m.post (.precedence (.between x 5 z))).2
  let m : Model :=
    (m.post (.nonOverlap ⟨[⟨x, .clamp 2, x, .clamp 2⟩, ⟨y, .clamp 2, y, .clamp 2⟩]⟩)).2
  (m.branch (.labelling (.ascending [x, y, z]))).2

theorem assembled_cramped : cramped.Assembled := by
  have hvars := ((Assembled.empty.newVar 0 1).newVar 0 1).newVar 0 9
  have hposted := (hvars.post (.precedence ⟨0⟩ 5 ⟨2⟩)).post
    (.nonOverlap [⟨⟨0⟩, .clamp 2, ⟨0⟩, .clamp 2⟩, ⟨⟨1⟩, .clamp 2, ⟨1⟩, .clamp 2⟩])
  exact hposted.branch (.labelling (.ascending [⟨0⟩, ⟨1⟩, ⟨2⟩])) rfl

/-- The third variable has been narrowed by the time the squares fail, with no bounds crossed.  A choice
that was made before is refused with that failure, when one more variable is there. -/
theorem propagate_sticks_cramped :
    ∃ c j n, cramped.choose = .ok (some c, j) ∧ c.alternatives = 2 ∧
      (∃ events, j.propagate = .ok (some ⟨⟨1⟩, 2, 1⟩, events, n)) ∧
      n.store.domains = #[⟨0, 1⟩, ⟨0, 1⟩, ⟨5, 9⟩] ∧ n.store.failure = some ⟨⟨1⟩, 2, 1⟩ ∧
      n.engine.agenda.waiting = [] ∧
      (n.newVar 0 9).2.commit c 1 = .ok (.error ⟨⟨1⟩, 2, 1⟩, (n.newVar 0 9).2) := by
  obtain ⟨c, j, n, events, hchoose, halternatives, hpropagate, hdomains⟩ :
      ∃ c j n events, cramped.choose = .ok (some c, j) ∧ c.alternatives = 2 ∧
        j.propagate = .ok (some ⟨⟨1⟩, 2, 1⟩, events, n) ∧
        n.store.domains = #[⟨0, 1⟩, ⟨0, 1⟩, ⟨5, 9⟩] :=
    ⟨_, _, _, _, rfl, rfl, rfl, rfl⟩
  have hj : cramped.Leads j := Node.Leads.tail .refl (.choose hchoose)
  have hlater : n.Leads (n.newVar 0 9).2 := Node.Leads.tail .refl (.newVar 0 9)
  have hn : j.Leads n := Node.Leads.tail .refl (.propagate hpropagate)
  obtain ⟨-, hall⟩ := propagate_sticks (assembled_cramped.leads.trans hj)
  obtain ⟨hconcluded, hstuck⟩ := hall _ _ _ hpropagate
  refine ⟨c, j, n, hchoose, halternatives, ⟨events, hpropagate⟩, hdomains, hconcluded.failure,
    hconcluded.idle, ?_⟩
  exact (hstuck _ rfl _ hlater).commit cramped j c assembled_cramped.leads hchoose
    ((hj.trans hn).trans hlater) 1 (by omega)

end Model

end FiniteDomain
