import FiniteDomain.Proofs.Calling
import FiniteDomain.Proofs.Safety
import FiniteDomain.Proofs.Shrinking

/-!
# Termination of search

A search does not count how deep it is.  It ends because each node weighs less than the one that it
was made from: the alternative that was committed has taken a value from some domain, and nothing puts
one back.

The rank of a search bounds the steps that are left.  Let `base` be larger than the weight of the
root.  Then `base ^ w` steps are enough for a node of weight `w` with all that is below it: there are
not more alternatives than values, hence fewer than `base`, and each of them leads to a node of less
weight.  An open node counts this much for each alternative that is left.  A step takes one of them
away, and what comes of it counts less.
-/

namespace FiniteDomain

namespace Store

/-- The domains are part of those of the other store, and have fewer values. -/
structure Lighter (t s : Store) : Prop where
  below : t.Below s
  weight : t.weight < s.weight

variable {s t u : Store}

theorem Lighter.of_below (hut : u.Below t) (hts : t.Lighter s) : u.Lighter s where
  below := hut.trans hts.below
  weight := hut.weight_le.trans_lt hts.weight

theorem Lighter.trans (hut : u.Lighter t) (hts : t.Lighter s) : u.Lighter s :=
  .of_below hut.below hts

end Store

namespace Node

variable {P : Type} {n m : Node P Strategy} {c : Choice}

/-- No range of an alternative covers the domain of the variable that the choice is about. -/
def Cuts (n : Node P Strategy) (c : Choice) : Prop :=
  ∃ b x, n.branchers[c.brancher]? = some b ∧ b.Cuts c n.store x

theorem Cuts.alternatives_le (h : n.Cuts c) : c.alternatives ≤ n.store.weight := by
  obtain ⟨b, x, -, hcuts⟩ := h
  exact hcuts.alternatives_le.trans (Store.size_le_weight hcuts.has)

theorem cuts_of_choose (hn : n.Remembers) (hs : n.store.Consistent)
    (hpolicies : ∀ b ∈ n.policies, b.IsSplitting ∧ b.Addressable)
    (h : n.choose = .ok (some c, m)) : m.Cuts c := by
  have hchooses := hn.chooses h
  obtain ⟨b, hb, hchoose⟩ := hchooses.strategy c rfl
  have hpolicy := hpolicies b.rewound (hchooses.policies ▸ rewound_mem_policies hb)
  rw [Strategy.isSplitting_rewound, Strategy.addressable_rewound] at hpolicy
  obtain ⟨x, hx⟩ := Strategy.cuts_of_choose hs hpolicy.1 hpolicy.2 hchoose
  rw [← hchooses.store] at hx
  exact ⟨b, x, hb, hx⟩

end Node

namespace Model

/-- What a commit does to the domains: the variable that the choice is about loses values, and none
gets any. -/
structure Shrinks (n : Model) (c : Choice) (m : Model) : Prop where
  lighter : m.store.Lighter n.store
  chosen : ∃ b x, n.branchers[c.brancher]? = some b ∧ b.vars[c.pos]? = some x ∧
    m.store.view x < n.store.view x

theorem shrinks_of_commit {n m : Model} {c : Choice} {alternative : Nat} (h : n.Cuts c)
    (hcommit : n.commit c alternative = .ok (.ok (), m)) : Shrinks n c m := by
  obtain ⟨b, x, hb, hcuts⟩ := h
  obtain ⟨hlt, -, b', y, e, changed, hb', hrange', hnarrow, hreply⟩ := commit_eq_ok hcommit
  obtain ⟨d, hrange, hcovers⟩ := hcuts.range alternative hlt
  rw [hb, Option.some.injEq] at hb'
  rw [← hb', hrange, Except.ok.injEq, Prod.mk.injEq] at hrange'
  rw [← hrange'.1, ← hrange'.2] at hnarrow
  have hbelow := Store.Below.of_narrowing (Store.Narrowing.refl.narrow hnarrow)
  rcases Store.narrow_cases hnarrow with ⟨w, hfailed, -, -⟩ | ⟨-, hhas, hleft, -, hstore⟩
  · rw [hfailed] at hreply
    contradiction
  · have hview : m.store.view x = (n.store.view x).inter d := by
      rw [hstore, Store.view_cut hhas, View.cut_self]
    constructor
    · refine ⟨hbelow, ?_⟩
      rw [hstore]
      exact Store.weight_cut_lt hhas hcovers hleft
    · refine ⟨b, x, hb, hcuts.position, lt_of_le_of_ne (hbelow.view x) ?_⟩
      rw [hview, ne_eq, Interval.inter_eq_left_iff]
      exact hcovers

end Model

section Rank

variable {P B : Type}

/-- The steps that are enough for the alternatives that are left. -/
def OpenNode.rank (base : Nat) (top : OpenNode P B) : Nat :=
  (top.choice.alternatives - top.next) * base ^ (top.node.store.weight - 1)

/-- An open node with all its alternatives counts less than the node did before it was split. -/
theorem OpenNode.rank_lt {base : Nat} {top : OpenNode P B}
    (halternatives : top.choice.alternatives ≤ top.node.store.weight)
    (hbase : top.node.store.weight < base) : top.rank base < base ^ top.node.store.weight := by
  have hpos := top.choice.alternatives_pos
  have hleft : top.choice.alternatives - top.next < base := by omega
  calc
    top.rank base = (top.choice.alternatives - top.next) * base ^ (top.node.store.weight - 1) := rfl
    _ < base * base ^ (top.node.store.weight - 1) :=
      Nat.mul_lt_mul_of_pos_right hleft (Nat.pow_pos (by omega))
    _ = base ^ top.node.store.weight := mul_pow_sub_one (by omega) base

namespace Search

/-- The steps that are enough for the root, if it was not visited, and for all open nodes. -/
def rank (base : Nat) (s : Search P B) : Nat :=
  (s.root.elim 0 fun n => base ^ n.store.weight) + (s.stack.map (OpenNode.rank base)).sum

/-- Taking an alternative of the deepest open node takes off what the alternative counts. -/
theorem rank_takeNext (base : Nat) {s : Search P B} {top : OpenNode P B}
    {below : List (OpenNode P B)} (hstack : s.stack = top :: below)
    (hnext : top.next < top.choice.alternatives) :
    ({ s with stack := remainder top below } : Search P B).rank base +
      base ^ (top.node.store.weight - 1) = s.rank base := by
  unfold rank
  rw [hstack]
  unfold remainder
  dsimp only
  split
  · rename_i hmore
    have hsplit : top.choice.alternatives - top.next =
        (top.choice.alternatives - (top.next + 1)) + 1 := by omega
    simp only [List.map_cons, List.sum_cons, OpenNode.rank]
    rw [hsplit, Nat.succ_mul]
    omega
  · have hlast : top.choice.alternatives - top.next = 1 := by omega
    simp only [List.map_cons, List.sum_cons, OpenNode.rank, hlast, Nat.one_mul]
    omega

/-- If each step ends the search or lowers its rank, a trail leads to the end. -/
theorem exists_trail [Propagator P] [Brancher B] {Inv : Search P B → Prop}
    {rank : Search P B → Nat}
    (hstep : ∀ s, Inv s → s.progress = .running → ∃ o, s.step = .ok o ∧ Inv o.search ∧
      (o.search.progress ≠ .running ∨ rank o.search < rank s))
    {s : Search P B} (hs : Inv s) :
    ∃ length sols t, Trail length s sols t ∧ length ≤ rank s + 1 ∧ t.progress ≠ .running := by
  induction hrank : rank s using Nat.strong_induction_on generalizing s with
  | h r ih =>
      by_cases hrunning : s.progress = .running
      · obtain ⟨o, ho, hinv, hended | hless⟩ := hstep s hs hrunning
        · exact ⟨_, _, _, .step hrunning ho (.stop o.search), by omega, hended⟩
        · rw [hrank] at hless
          obtain ⟨length, sols, t, htrail, hlength, hended⟩ := ih _ hless hinv rfl
          exact ⟨_, _, t, .step hrunning ho htrail, by omega, hended⟩
      · exact ⟨0, [], s, .stop s, Nat.zero_le _, hrunning⟩

end Search

end Rank

namespace Search

variable {root n : Model} {ps : List Posting} {s t : Search Constraint Strategy}
  {sol : Option Solution} {sols : List Solution}

/-- Each open node is lighter than the one that it was made from, and its alternatives cut it further.
Before the root is visited, there is no open node. -/
structure Tapers (s : Search Constraint Strategy) : Prop where
  untouched : ∀ n, s.root = some n → s.stack = []
  cuts : ∀ top ∈ s.stack, top.node.Cuts top.choice
  lighter : s.stack.Pairwise fun child parent => child.node.store.Lighter parent.node.store

theorem Tapers.takeNext {top : OpenNode Constraint Strategy}
    {below : List (OpenNode Constraint Strategy)} (hs : Tapers s) (hstack : s.stack = top :: below) :
    Tapers { s with stack := remainder top below } where
  untouched n hn := by
    have hnil := hs.untouched n hn
    rw [hstack] at hnil
    contradiction
  cuts other hother := by
    have hcuts := hs.cuts
    rw [hstack] at hcuts
    rcases mem_remainder hother with ⟨hnode, hchoice⟩ | hbelow
    · rw [hnode, hchoice]
      exact hcuts top List.mem_cons_self
    · exact hcuts other (List.mem_cons_of_mem _ hbelow)
  lighter := by
    have hlighter := hs.lighter
    rw [hstack, List.pairwise_cons] at hlighter
    dsimp only
    unfold remainder
    split
    · exact List.pairwise_cons.mpr hlighter
    · exact hlighter.2

/-- What is lighter than the deepest open node is lighter than all open nodes that remain. -/
theorem Tapers.lighter_of_mem_remainder {top other : OpenNode Constraint Strategy}
    {below : List (OpenNode Constraint Strategy)} (hs : Tapers s) (hstack : s.stack = top :: below)
    {store : Store} (hstore : store.Lighter top.node.store) (hother : other ∈ remainder top below) :
    store.Lighter other.node.store := by
  have hlighter := hs.lighter
  rw [hstack, List.pairwise_cons] at hlighter
  rcases mem_remainder hother with ⟨hnode, -⟩ | hbelow
  · rw [hnode]
    exact hstore
  · exact hstore.trans (hlighter.1 other hbelow)

/-- A visit adds less to the rank than the node counted that is visited. -/
theorem Tapers.afterVisit (hpolicies : ∀ b ∈ root.policies, b.IsSplitting ∧ b.Addressable)
    (hs : Tapers s) (hvisited : s.root = none)
    (hn : n.store.failure = none → Model.Descends root ps n)
    (hlighter : ∀ top ∈ s.stack, n.store.Lighter top.node.store) (h : Visit s n t sol) :
    Tapers t ∧ t.rank (root.store.weight + 1) <
      s.rank (root.store.weight + 1) + (root.store.weight + 1) ^ n.store.weight := by
  have hpositive : 0 < (root.store.weight + 1) ^ n.store.weight := Nat.pow_pos (Nat.succ_pos _)
  cases h with
  | unimproved =>
      exact ⟨⟨hs.untouched, hs.cuts, hs.lighter⟩, Nat.lt_add_of_pos_right hpositive⟩
  | failed =>
      exact ⟨⟨hs.untouched, hs.cuts, hs.lighter⟩, Nat.lt_add_of_pos_right hpositive⟩
  | solved =>
      exact ⟨⟨hs.untouched, hs.cuts, hs.lighter⟩, Nat.lt_add_of_pos_right hpositive⟩
  | @split n₁ n₂ n₃ events c counters hconstrain hpropagate hchoose =>
      obtain ⟨hn₁, r, hreaches, hnone, rfl⟩ := propagate_of_constrain hn hconstrain hpropagate
      have hreached := hn₁.afterPropagate hreaches hnone
      have hbelow : n₃.store.Below n.store := by
        rw [(hreached.sound.remembers.chooses hchoose).store]
        exact hreaches.below.trans (.of_narrowing (narrowing_of_constrain hconstrain).1)
      have hcuts : n₃.Cuts c := by
        apply Node.cuts_of_choose hreached.sound.remembers hreached.sound.consistent _ hchoose
        rw [hreached.policies]
        exact hpolicies
      have hroot := (hreached.afterChoose hchoose).below.weight_le
      have hrank : OpenNode.rank (root.store.weight + 1) ⟨n₃, c, 0⟩ <
          (root.store.weight + 1) ^ n₃.store.weight :=
        OpenNode.rank_lt hcuts.alternatives_le (Nat.lt_succ_of_le hroot)
      have hpow : (root.store.weight + 1) ^ n₃.store.weight ≤
          (root.store.weight + 1) ^ n.store.weight :=
        Nat.pow_le_pow_right (Nat.succ_pos _) hbelow.weight_le
      constructor
      · constructor
        · intro other hother
          rw [hvisited] at hother
          contradiction
        · exact List.forall_mem_cons.mpr ⟨hcuts, hs.cuts⟩
        · refine List.pairwise_cons.mpr ⟨?_, hs.lighter⟩
          intro parent hparent
          exact .of_below hbelow (hlighter parent hparent)
      · unfold rank
        dsimp only
        rw [List.map_cons, List.sum_cons]
        omega

/-- A step keeps the nodes tapering.  If the search is running, it is its last step, or it lowers the
rank. -/
theorem Tapers.afterStep (hsound : root.store.failure = none → root.Sound ps)
    (hpolicies : ∀ b ∈ root.policies, b.IsSplitting ∧ b.Addressable) (hsafe : Safe root ps s)
    (hs : Tapers s) (h : Step s t sol) :
    Tapers t ∧ (s.progress = .running → t.progress ≠ .running ∨
      t.rank (root.store.weight + 1) < s.rank (root.store.weight + 1)) := by
  cases h with
  | finished hended => exact ⟨hs, fun hrunning => absurd hrunning hended⟩
  | interrupted => exact ⟨⟨hs.untouched, hs.cuts, hs.lighter⟩, fun _ => Or.inl (by simp)⟩
  | exhausted => exact ⟨⟨hs.untouched, hs.cuts, hs.lighter⟩, fun _ => Or.inl (by simp)⟩
  | @root n _ _ _ hsome hvisit =>
      have heq := hsafe.explores.untouched n hsome
      have hdescends : n.store.failure = none → Model.Descends root ps n := by
        rw [heq]
        exact fun hfine => (hsound hfine).descends
      have hnil := hs.untouched n hsome
      have htaken : Tapers { s with root := none } :=
        ⟨fun other hother => by contradiction, hs.cuts, hs.lighter⟩
      obtain ⟨htapers, hless⟩ := htaken.afterVisit hpolicies rfl hdescends
        (fun top htop => by rw [hnil] at htop; contradiction) hvisit
      refine ⟨htapers, fun _ => Or.inr ?_⟩
      have hrank : s.rank (root.store.weight + 1) =
          ({ s with root := none } : Search Constraint Strategy).rank (root.store.weight + 1) +
            (root.store.weight + 1) ^ n.store.weight := by
        unfold rank
        rw [hsome, Option.elim_some, Option.elim_none, Nat.zero_add, Nat.add_comm]
      omega
  | @dropped top below w n counters _ hnone hstack hcommit =>
      have hnext := hsafe.next_lt top (hstack ▸ List.mem_cons_self)
      have hrank := rank_takeNext (root.store.weight + 1) hstack hnext
      have hpositive : 0 < (root.store.weight + 1) ^ (top.node.store.weight - 1) :=
        Nat.pow_pos (Nat.succ_pos _)
      have htaken := hs.takeNext hstack
      refine ⟨⟨htaken.untouched, htaken.cuts, htaken.lighter⟩, fun _ => Or.inr ?_⟩
      have hsame : ({ s with stack := remainder top below, counters := counters } :
          Search Constraint Strategy).rank (root.store.weight + 1) =
            ({ s with stack := remainder top below } : Search Constraint Strategy).rank
              (root.store.weight + 1) := rfl
      omega
  | @child top below n _ _ _ hnone hstack hcommit hvisit =>
      have hmem : top ∈ s.stack := hstack ▸ List.mem_cons_self
      have hrank := rank_takeNext (root.store.weight + 1) hstack (hsafe.next_lt top hmem)
      have hlighter := (Model.shrinks_of_commit (hs.cuts top hmem) hcommit).lighter
      have hweight := hlighter.weight
      have hpow : (root.store.weight + 1) ^ n.store.weight ≤
          (root.store.weight + 1) ^ (top.node.store.weight - 1) :=
        Nat.pow_le_pow_right (Nat.succ_pos _) (by omega)
      obtain ⟨htapers, hless⟩ := (hs.takeNext hstack).afterVisit hpolicies hnone
        (fun hfine => (hsafe.explores.descends top hmem).afterCommit hcommit hfine)
        (fun other hother => hs.lighter_of_mem_remainder hstack hlighter hother) hvisit
      exact ⟨htapers, fun _ => Or.inr (by omega)⟩

theorem Tapers.afterSteps (hsound : root.store.failure = none → root.Sound ps)
    (hknows : root.Knows) (hpolicies : ∀ b ∈ root.policies, b.IsSplitting ∧ b.Addressable)
    (hsafe : Safe root ps s) (hs : Tapers s) (h : s.Steps sols t) : Tapers t := by
  induction h with
  | refl => exact hs
  | step hsteps hstep ih =>
      exact (ih.afterStep hsound hpolicies (hsafe.afterSteps hsound hknows hsteps) hstep).1

/-- A search whose nodes taper takes no more steps than its rank before the last one. -/
theorem Tapers.exists_trail (hsound : root.store.failure = none → root.Sound ps)
    (hknows : root.Knows) (hpolicies : ∀ b ∈ root.policies, b.IsSplitting ∧ b.Addressable)
    (hsafe : Safe root ps s) (hs : Tapers s) :
    ∃ length sols t, Trail length s sols t ∧ length ≤ s.rank (root.store.weight + 1) + 1 ∧
      t.progress ≠ .running := by
  have hstep : ∀ u, Safe root ps u ∧ Tapers u → u.progress = .running →
      ∃ o, u.step = .ok o ∧ (Safe root ps o.search ∧ Tapers o.search) ∧
        (o.search.progress ≠ .running ∨
          o.search.rank (root.store.weight + 1) < u.rank (root.store.weight + 1)) := by
    intro u hu hrunning
    obtain ⟨o, ho⟩ := hu.1.exists_step hsound hknows
    have hstep := step_of_step_eq_ok ho
    have hafter := hu.2.afterStep hsound hpolicies hu.1 hstep
    exact ⟨o, ho, ⟨hu.1.afterStep hsound hknows hstep, hafter.1⟩, hafter.2 hrunning⟩
  exact Search.exists_trail hstep ⟨hsafe, hs⟩

theorem tapers_start (hstack : s.stack = []) : Tapers s where
  untouched _ _ := hstack
  cuts top htop := by
    rw [hstack] at htop
    contradiction
  lighter := by
    rw [hstack]
    exact .nil

theorem rank_start (hroot : s.root = some root) (hstack : s.stack = []) (base : Nat) :
    s.rank base = base ^ root.store.weight := by
  unfold rank
  rw [hroot, hstack]
  rfl

/-- Whatever was asked for, and in whatever order branchers decide, the calls of a search return
finitely many solutions and then nothing any more, and each of them ends.  On the way down domains only
shrink, and each commit takes values from the domain of the variable that was chosen. -/
theorem calls_end {root : Model} {s : Search Constraint Strategy} {budget : Budget}
    {verbosity : Level} (hroot : root.Assembled) (hmentions : root.Mentions)
    (hbranchers : ∀ b ∈ root.branchers,
      b.IsSplitting ∧ b.Addressable ∧ ∀ x ∈ b.vars, root.store.Has x)
    (hs : s = enumerate root budget verbosity ∨
      ∃ objective, root.store.Has objective.var ∧ s = optimize root objective budget verbosity) :
    (∃ sols : List Solution,
      ∀ fuel ≥ (root.store.weight + 1) ^ root.store.weight + 1, ∀ calls, ∃ t,
        s.replies fuel calls =
          .ok ((sols.map some).take calls ++ List.replicate (calls - sols.length) none, t) ∧
        (sols.length < calls → t.progress ≠ .running)) ∧
    ∀ sols t, s.Steps sols t →
      (t.stack.Pairwise fun child parent => child.node.store.Lighter parent.node.store) ∧
      ∀ top ∈ t.stack, top.node.store.Below root.store ∧
        ∀ alternative n, top.node.commit top.choice alternative = .ok (.ok (), n) →
          Model.Shrinks top.node top.choice n := by
  have hpolicies : ∀ b ∈ root.policies,
      b.IsSplitting ∧ b.Addressable ∧ ∀ x ∈ b.vars, root.store.Has x := by
    intro b hb
    obtain ⟨b', hb', rfl⟩ := List.mem_map.mp hb
    rw [Strategy.isSplitting_rewound, Strategy.addressable_rewound, Strategy.vars_rewound]
    exact hbranchers b' (Array.mem_toList_iff.mp hb')
  have hknows : root.Knows := fun b hb => ⟨(hpolicies b hb).1, (hpolicies b hb).2.2⟩
  have hsplitting : ∀ b ∈ root.policies, b.IsSplitting ∧ b.Addressable :=
    fun b hb => ⟨(hpolicies b hb).1, (hpolicies b hb).2.1⟩
  have hstart : s.root = some root ∧ s.stack = [] := by
    rcases hs with rfl | ⟨objective, -, rfl⟩
    · exact ⟨rfl, rfl⟩
    · exact ⟨rfl, rfl⟩
  obtain ⟨ps, hsound⟩ := hroot.exists_sound hmentions
  have hsafe : Safe root ps s := safe_start hs
  have htapers := tapers_start hstart.2
  constructor
  · obtain ⟨length, sols, t, htrail, hlength, hended⟩ :=
      htapers.exists_trail hsound hknows hsplitting hsafe
    rw [rank_start hstart.1 hstart.2] at hlength
    refine ⟨sols, ?_⟩
    intro fuel hfuel calls
    obtain ⟨u, hreplies, hlast⟩ := htrail.replies_eq_ok hended (hlength.trans hfuel) calls
    refine ⟨u, hreplies, ?_⟩
    intro hless
    rw [hlast hless]
    exact hended
  · intro sols t hsteps
    have hafter := htapers.afterSteps hsound hknows hsplitting hsafe hsteps
    have hexplores := (hsafe.afterSteps hsound hknows hsteps).explores
    refine ⟨hafter.lighter, ?_⟩
    intro top htop
    refine ⟨(hexplores.descends top htop).below, ?_⟩
    intro alternative n hcommit
    exact Model.shrinks_of_commit (hafter.cuts top htop) hcommit

/-- The positions of the items in the strip are found after finitely many calls, the one of the second
item as small as possible. -/
theorem calls_end_strip :
    ∃ sols : List Solution,
      ∀ fuel ≥ (Model.strip.store.weight + 1) ^ Model.strip.store.weight + 1, ∀ calls, ∃ t,
        (optimize Model.strip (.minimize ⟨1⟩) .unlimited .info).replies fuel calls =
          .ok ((sols.map some).take calls ++ List.replicate (calls - sols.length) none, t) ∧
        (sols.length < calls → t.progress ≠ .running) :=
  (calls_end Model.assembled_strip (by decide) (by decide)
    (Or.inr ⟨.minimize ⟨1⟩, by decide, rfl⟩)).1

end Search

end FiniteDomain
