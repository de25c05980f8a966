import FiniteDomain.Proofs.Regions

/-!
# Completeness of search

Where every choice splits the domain of a variable, the boxes of the solutions found so far and the
regions of the open nodes are separate, and no wanted assignment is outside of them.  Wanted are the
satisfying assignments, and in a search with an objective those of them that improve on the best
solution.  A visit shrinks the region of its node to what propagation leaves of it, and a commit
splits a region in the alternative that is taken and the ones that remain.
-/

namespace FiniteDomain

namespace Search

/-- The assignments of a node that lie in the range of an alternative. -/
def granted (n : Model) (c : Choice) (alternative : Nat) : Set (Var → Int) :=
  { value | ∃ b x d, n.branchers[c.brancher]? = some b ∧ b.range c alternative = .ok (x, d) ∧
    value x ∈ d }

/-- The assignments of an open node in the alternatives that were not taken yet. -/
def region (top : OpenNode Constraint Strategy) : Set (Var → Int) :=
  { value | top.node.store.Allows value ∧
    ∃ alternative, top.next ≤ alternative ∧ alternative < top.choice.alternatives ∧
      value ∈ granted top.node top.choice alternative }

/-- The regions that a search has still to look at. -/
def regions (s : Search Constraint Strategy) : List (Set (Var → Int)) :=
  s.root.toList.map (·.store.box) ++ s.stack.map region

/-- The boxes of solutions. -/
def boxes (sols : List Solution) : List (Set (Var → Int)) :=
  sols.map (·.store.box)

/-- The satisfying assignments below `root` that improve on the best solution. -/
def wanted (root : Model) (ps : List Posting) (s : Search Constraint Strategy) :
    Set (Var → Int) :=
  root.satisfying ps ∩ s.improving

variable {root n n₁ n₂ n₃ : Model} {ps : List Posting} {s t : Search Constraint Strategy}
  {sol : Option Solution} {sols : List Solution} {value : Var → Int} {c : Choice}

/-- The choice splits the domain of a variable of the node. -/
def SplitBy (n : Model) (c : Choice) : Prop :=
  ∃ b, n.branchers[c.brancher]? = some b ∧ b.Splits c n.store

theorem SplitBy.existsUnique (h : SplitBy n c) (hvalue : n.store.Allows value) :
    ∃! alternative, alternative < c.alternatives ∧ value ∈ granted n c alternative := by
  rcases h with ⟨b, hb, x, cell, hx, hrange, hunique⟩
  have hgranted : ∀ alternative < c.alternatives,
      (value ∈ granted n c alternative ↔ value x ∈ cell alternative) := by
    intro alternative hlt
    constructor
    · rintro ⟨b', x', d, hb', hrange', hmem⟩
      rw [hb, Option.some.injEq] at hb'
      subst hb'
      rw [hrange alternative hlt, Except.ok.injEq, Prod.mk.injEq] at hrange'
      rcases hrange' with ⟨rfl, rfl⟩
      exact hmem
    · intro hmem
      exact ⟨b, x, _, hb, hrange alternative hlt, hmem⟩
  obtain ⟨alternative, ⟨hlt, hmem⟩, honly⟩ :=
    hunique (value x) (hvalue x _ (Store.domain_of_has hx))
  refine ⟨alternative, ⟨hlt, (hgranted alternative hlt).mpr hmem⟩, ?_⟩
  rintro other ⟨hother, hmem'⟩
  exact honly other ⟨hother, (hgranted other hother).mp hmem'⟩

theorem region_start (h : SplitBy n c) : region ⟨n, c, 0⟩ = n.store.box := by
  ext value
  constructor
  · rintro ⟨hallows, -⟩
    exact hallows
  · intro hallows
    obtain ⟨alternative, ⟨hlt, hmem⟩, -⟩ := h.existsUnique hallows
    exact ⟨hallows, alternative, Nat.zero_le _, hlt, hmem⟩

/-- The region of an open node is what its next alternative grants, and the rest. -/
theorem region_next (top : OpenNode Constraint Strategy)
    (hlt : top.next < top.choice.alternatives) :
    region top = top.node.store.box ∩ granted top.node top.choice top.next ∪
      region { top with next := top.next + 1 } := by
  ext value
  constructor
  · rintro ⟨hallows, alternative, hnext, hless, hmem⟩
    by_cases hhere : alternative = top.next
    · subst hhere
      exact Or.inl ⟨hallows, hmem⟩
    · exact Or.inr ⟨hallows, alternative, Nat.lt_of_le_of_ne hnext (Ne.symm hhere), hless, hmem⟩
  · rintro (⟨hallows, hmem⟩ | ⟨hallows, alternative, hnext, hless, hmem⟩)
    · exact ⟨hallows, top.next, le_rfl, hlt, hmem⟩
    · exact ⟨hallows, alternative, Nat.le_of_succ_le hnext, hless, hmem⟩

theorem separate_next (top : OpenNode Constraint Strategy) (h : SplitBy top.node top.choice)
    (hlt : top.next < top.choice.alternatives) :
    Separate (top.node.store.box ∩ granted top.node top.choice top.next)
      (region { top with next := top.next + 1 }) := by
  rintro value ⟨hallows, hmem⟩ ⟨-, alternative, hnext, hless, hmem'⟩
  have hsame := (h.existsUnique hallows).unique ⟨hlt, hmem⟩ ⟨hless, hmem'⟩
  dsimp only at hnext
  omega

theorem box_of_commit {alternative : Nat} {reply : Except Wipeout Unit}
    (h : n.commit c alternative = .ok (reply, n₁)) (hn : n.store.failure = none) :
    (∀ value, value ∈ n.store.box ∩ granted n c alternative →
      reply = .ok () ∧ value ∈ n₁.store.box) ∧
      (reply = .ok () → n₁.store.failure = none ∧
        n₁.store.box ⊆ n.store.box ∩ granted n c alternative) := by
  obtain ⟨-, heq, b, x, d, changed, hb, hrange, hnarrow, rfl⟩ := Model.commit_eq_ok h
  have hreply : changed.map (fun _ => ()) = .ok () ↔ n₁.store.failure = none := by
    rw [Store.reply_of_narrow hnarrow]
    cases changed with
    | error w => simp [Except.map]
    | ok changed => simp [Except.map]
  constructor
  · rintro value ⟨hallows, b', x', d', hb', hrange', hmem⟩
    rw [hb, Option.some.injEq] at hb'
    subst hb'
    rw [hrange, Except.ok.injEq, Prod.mk.injEq] at hrange'
    rcases hrange' with ⟨rfl, rfl⟩
    obtain ⟨hfine, hallows'⟩ := Store.allows_of_narrow hnarrow hn hallows hmem
    exact ⟨hreply.mpr hfine, hallows'⟩
  · intro hok
    have hfine := hreply.mp hok
    refine ⟨hfine, ?_⟩
    intro value hvalue
    have hbelow := Store.Below.of_narrowing (Store.Narrowing.refl.narrow hnarrow)
    exact ⟨hbelow.box_subset hvalue, b, x, d, hb, hrange,
      Store.mem_of_narrow hnarrow hfine hvalue⟩

/-- All strategies of the model split domains, and their choices can tell positions apart. -/
def Splitting (m : Model) : Prop :=
  ∀ b ∈ m.branchers, b.IsSplitting ∧ b.Addressable

instance (m : Model) : Decidable (Splitting m) :=
  inferInstanceAs (Decidable (∀ b ∈ m.branchers, b.IsSplitting ∧ b.Addressable))

theorem Splitting.policies (h : Splitting root) :
    ∀ b ∈ root.policies, b.IsSplitting ∧ b.Addressable := by
  intro b hb
  rcases List.mem_map.mp hb with ⟨b', hmem, rfl⟩
  rw [Strategy.isSplitting_rewound, Strategy.addressable_rewound]
  exact h b' (Array.mem_toList_iff.mp hmem)

/-- A node that is visited keeps the wanted assignments of its box. -/
theorem allows_of_visit {events : List Event} {failure : Option Wipeout}
    (hroot : root.Sound ps) (hn : root.Descends ps n) (hconstrain : s.constrain n = .ok (none, n₁))
    (hpropagate : n₁.propagate = .ok (failure, events, n₂)) (hvalue : value ∈ n.store.box)
    (hwanted : value ∈ wanted root ps s) : failure = none ∧ value ∈ n₂.store.box := by
  rcases hwanted with ⟨hsatisfying, hbetter⟩
  have hallows := (allows_of_constrain hconstrain hn.sound.consistent.failure hvalue hbetter).2
  have hfine : n₁.store.failure = none := by
    rcases constrain_eq_ok hconstrain with ⟨-, rfl, -⟩ | ⟨_, _, _, -, -, hnarrow, -, hreply⟩
    · exact hn.sound.consistent.failure
    · exact (Store.reply_of_narrow hnarrow).mpr (hreply.mp rfl)
  have hn₁ : n₁.Sound ps := by
    obtain ⟨hst, heq⟩ := narrowing_of_constrain hconstrain
    rw [heq]
    exact hn.sound.afterNarrowing hst hfine
  obtain ⟨r, hr, hreaches⟩ := hn₁.propagate_eq_ok
  rw [hr, Except.ok.injEq, Prod.mk.injEq, Prod.mk.injEq] at hpropagate
  rcases hpropagate with ⟨rfl, -, rfl⟩
  exact hroot.allows_of_reaches hn₁ hreaches hsatisfying hallows

theorem box_of_visit {events : List Event} {choice : Option Choice}
    (hn : root.Descends ps n) (hconstrain : s.constrain n = .ok (none, n₁))
    (hpropagate : n₁.propagate = .ok (none, events, n₂)) (hchoose : n₂.choose = .ok (choice, n₃)) :
    root.Descends ps n₃ ∧ n₃.store = n₂.store ∧ n₂.store.box ⊆ n₁.store.box ∧
      n₁.store.box ⊆ n.store.box ∧ (∀ c, choice = some c → Splitting root → SplitBy n₃ c) := by
  obtain ⟨hst, -⟩ := narrowing_of_constrain hconstrain
  obtain ⟨hn₁, r, hreaches, hnone, rfl⟩ :=
    propagate_of_constrain (fun _ => hn) hconstrain hpropagate
  have hn₂ := hn₁.afterPropagate hreaches hnone
  have hchooses := hn₂.sound.remembers.chooses hchoose
  refine ⟨hn₂.afterChoose hchoose, hchooses.store, hreaches.below.box_subset,
    (Store.Below.of_narrowing hst).box_subset, ?_⟩
  intro c hc hsplitting
  subst hc
  apply hchooses.splits hn₂.sound.consistent
  rw [hn₂.policies]
  exact hsplitting.policies

/-- In a visit the box of the node gives way: to the region of its choice, or to a solution. -/
theorem parts_of_visit {closed : List (Set (Var → Int))} (hroot : root.Sound ps)
    (hsplitting : Splitting root) (hn : root.Descends ps n) (h : Visit s n t sol)
    (hparts : Parts (wanted root ps s) closed (n.store.box :: s.stack.map region)) :
    Parts (wanted root ps t) (closed ++ boxes sol.toList) (t.stack.map region) := by
  have hkeeps : ∀ {n₁ n₂ events failure}, s.constrain n = .ok (none, n₁) →
      n₁.propagate = .ok (failure, events, n₂) →
        ∀ value ∈ n.store.box ∩ wanted root ps s, failure = none ∧ value ∈ n₂.store.box := by
    rintro n₁ n₂ events failure hconstrain hpropagate value ⟨hvalue, hwanted⟩
    exact allows_of_visit hroot hn hconstrain hpropagate hvalue hwanted
  cases h with
  | unimproved hconstrain =>
      have hrest : Parts (wanted root ps s) closed (s.stack.map region) := by
        apply hparts.drop
        rintro value ⟨hvalue, -, hbetter⟩
        have hnone := (allows_of_constrain hconstrain hn.sound.consistent.failure hvalue hbetter).1
        contradiction
      rw [Option.toList_none, boxes, List.map_nil, List.append_nil]
      exact hrest
  | failed hconstrain hpropagate =>
      have hrest : Parts (wanted root ps s) closed (s.stack.map region) := by
        apply hparts.drop
        intro value hvalue
        have hnone := (hkeeps hconstrain hpropagate value hvalue).1
        contradiction
      rw [Option.toList_none, boxes, List.map_nil, List.append_nil]
      exact hrest
  | @split n₁ n₂ n₃ events c counters hconstrain hpropagate hchoose =>
      obtain ⟨-, hstore, hsub₂, hsub₁, hsplit⟩ := box_of_visit hn hconstrain hpropagate hchoose
      have hregion : region ⟨n₃, c, 0⟩ = n₂.store.box := by
        rw [region_start (hsplit c rfl hsplitting), hstore]
      have hnext : Parts (wanted root ps s) closed (region ⟨n₃, c, 0⟩ :: s.stack.map region) := by
        rw [hregion]
        apply hparts.shrink (hsub₂.trans hsub₁)
        intro value hvalue
        exact (hkeeps hconstrain hpropagate value hvalue).2
      rw [Option.toList_none, boxes, List.map_nil, List.append_nil]
      exact hnext
  | @solved n₁ n₂ n₃ events best counters hconstrain hpropagate hchoose hbest =>
      obtain ⟨hn₃, hstore, hsub₂, hsub₁, -⟩ := box_of_visit hn hconstrain hpropagate hchoose
      rw [← hstore] at hsub₂
      have hshrunk : Parts (wanted root ps s) closed (n₃.store.box :: s.stack.map region) := by
        apply hparts.shrink (hsub₂.trans hsub₁)
        intro value hvalue
        rw [hstore]
        exact (hkeeps hconstrain hpropagate value hvalue).2
      have hless : improving { s with best := best, counters := counters } ⊆ s.improving :=
        improving_of_bestAfter hconstrain hn₃.sound.consistent hsub₂ hbest
      have hclosed := hshrunk.close.mono (Set.inter_subset_inter_right (root.satisfying ps) hless)
      exact hclosed

theorem splitBy_of_visit (hsplitting : Splitting root) (hn : root.Descends ps n)
    (h : Visit s n t sol) (hs : ∀ top ∈ s.stack, SplitBy top.node top.choice) :
    ∀ top ∈ t.stack, SplitBy top.node top.choice := by
  cases h with
  | unimproved => exact hs
  | failed => exact hs
  | solved => exact hs
  | split hconstrain hpropagate hchoose =>
      obtain ⟨-, -, -, -, hsplit⟩ := box_of_visit hn hconstrain hpropagate hchoose
      intro top htop
      rcases List.mem_cons.mp htop with rfl | htop
      · exact hsplit _ rfl hsplitting
      · exact hs top htop

/-- Taking the next alternative of an open node splits its region. -/
theorem parts_of_remainder {wanted : Set (Var → Int)} {closed : List (Set (Var → Int))}
    {top : OpenNode Constraint Strategy} {below : List (OpenNode Constraint Strategy)}
    (h : SplitBy top.node top.choice) (hlt : top.next < top.choice.alternatives)
    (hparts : Parts wanted closed ((top :: below).map region)) :
    Parts wanted closed (top.node.store.box ∩ granted top.node top.choice top.next ::
      (remainder top below).map region) := by
  have hsplit := hparts.split (region_next top hlt) (separate_next top h hlt)
  unfold remainder
  by_cases hmore : top.next + 1 < top.choice.alternatives
  · rw [if_pos hmore]
    exact hsplit
  · rw [if_neg hmore]
    have hempty : region { top with next := top.next + 1 } = ∅ := by
      rw [Set.eq_empty_iff_forall_notMem]
      rintro value ⟨-, alternative, hnext, hless, -⟩
      dsimp only at hnext hless
      omega
    have hwhole : region top = top.node.store.box ∩ granted top.node top.choice top.next := by
      rw [region_next top hlt, hempty, Set.union_empty]
    rw [← hwhole]
    exact hparts

/-- The invariant of a search that is to be complete.  A region that was taken from it, and is about
to be visited, is pending. -/
structure Covers (root : Model) (ps : List Posting) (sols : List Solution)
    (pending : List (Set (Var → Int))) (s : Search Constraint Strategy) : Prop where
  explores : Explores root ps s
  splits : ∀ top ∈ s.stack, SplitBy top.node top.choice
  parts : Parts (wanted root ps s) (boxes sols) (pending ++ regions s)
  ended : s.progress = .exhausted → s.root = none ∧ s.stack = []

theorem Covers.takeRoot (hs : Covers root ps sols [] s) (hrunning : s.progress = .running)
    (hsome : s.root = some n) :
    Covers root ps sols [n.store.box] { s with root := none } := by
  have hparts := hs.parts
  unfold regions at hparts
  rw [hsome] at hparts
  refine ⟨⟨by simp, hs.explores.descends⟩, hs.splits, hparts, ?_⟩
  dsimp only
  rw [hrunning]
  intro hended
  contradiction

theorem Covers.takeNext {top : OpenNode Constraint Strategy}
    {below : List (OpenNode Constraint Strategy)} (hs : Covers root ps sols [] s)
    (hrunning : s.progress = .running) (hnone : s.root = none) (hstack : s.stack = top :: below)
    (hlt : top.next < top.choice.alternatives) :
    Covers root ps sols [top.node.store.box ∩ granted top.node top.choice top.next]
      { s with stack := remainder top below } := by
  have hsplits := hs.splits
  have hparts := hs.parts
  unfold regions at hparts
  rw [hnone] at hparts
  rw [hstack] at hsplits hparts
  have htaken := parts_of_remainder (hsplits top List.mem_cons_self) hlt hparts
  refine ⟨hs.explores.takeNext hstack, ?_, ?_, ?_⟩
  · intro other hother
    rcases mem_remainder hother with ⟨hnode, hchoice⟩ | hbelow
    · rw [hnode, hchoice]
      exact hsplits top List.mem_cons_self
    · exact hsplits other (List.mem_cons_of_mem _ hbelow)
  · unfold regions
    dsimp only
    rw [hnone]
    exact htaken
  · dsimp only
    rw [hrunning]
    intro hended
    contradiction

theorem Covers.afterVisit (hroot : root.Sound ps) (hsplitting : Splitting root)
    (hs : Covers root ps sols [n.store.box] s) (hrunning : s.progress = .running)
    (hnone : s.root = none) (hn : root.Descends ps n) (h : Visit s n t sol) :
    Covers root ps (sols ++ sol.toList) [] t := by
  obtain ⟨hprogress, hstart, -⟩ := h.frame
  have hparts := hs.parts
  unfold regions at hparts
  rw [hnone] at hparts
  refine ⟨(hs.explores.afterVisit (fun _ => hn) h).1, splitBy_of_visit hsplitting hn h hs.splits,
    ?_, ?_⟩
  · have hafter := parts_of_visit hroot hsplitting hn h hparts
    unfold regions
    rw [hstart, hnone, boxes, List.map_append]
    exact hafter
  · rw [hprogress, hrunning]
    intro hended
    contradiction

/-- An alternative that cannot be committed holds nothing that is wanted. -/
theorem Covers.afterDropped {top : OpenNode Constraint Strategy} {w : Wipeout}
    (hs : Covers root ps sols [top.node.store.box ∩ granted top.node top.choice top.next] s)
    (hfine : top.node.store.failure = none)
    (hcommit : top.node.commit top.choice top.next = .ok (.error w, n)) (counters : Counters) :
    Covers root ps sols [] { s with counters := counters } := by
  refine ⟨⟨hs.explores.untouched, hs.explores.descends⟩, hs.splits, ?_, hs.ended⟩
  apply hs.parts.drop
  rintro value ⟨hvalue, -⟩
  have hok := ((box_of_commit hcommit hfine).1 value hvalue).1
  contradiction

theorem Covers.afterCommit {top : OpenNode Constraint Strategy}
    (hs : Covers root ps sols [top.node.store.box ∩ granted top.node top.choice top.next] s)
    (hfine : top.node.store.failure = none)
    (hcommit : top.node.commit top.choice top.next = .ok (.ok (), n)) :
    Covers root ps sols [n.store.box] s := by
  obtain ⟨hkeeps, hnarrows⟩ := box_of_commit hcommit hfine
  refine ⟨hs.explores, hs.splits, hs.parts.shrink (hnarrows rfl).2 ?_, hs.ended⟩
  rintro value ⟨hvalue, -⟩
  exact (hkeeps value hvalue).2

theorem Covers.afterStep (hroot : root.Sound ps) (hsplitting : Splitting root)
    (hs : Covers root ps sols [] s) (h : Step s t sol) :
    Covers root ps (sols ++ sol.toList) [] t := by
  cases h with
  | finished =>
      rw [Option.toList_none, List.append_nil]
      exact hs
  | interrupted =>
      rw [Option.toList_none, List.append_nil]
      exact ⟨⟨hs.explores.untouched, hs.explores.descends⟩, hs.splits, hs.parts, by simp⟩
  | exhausted _ hnone hstack =>
      rw [Option.toList_none, List.append_nil]
      exact ⟨⟨hs.explores.untouched, hs.explores.descends⟩, hs.splits, hs.parts,
        fun _ => ⟨hnone, hstack⟩⟩
  | @root n t sol hprogress hsome hvisit =>
      have hn : root.Descends ps n := by
        rw [hs.explores.untouched n hsome]
        exact hroot.descends
      exact (hs.takeRoot hprogress hsome).afterVisit hroot hsplitting hprogress rfl hn hvisit
  | @dropped top below w n counters hprogress hnone hstack hcommit =>
      have htop := hs.explores.descends top (hstack ▸ List.mem_cons_self)
      have htaken := hs.takeNext hprogress hnone hstack (Model.commit_eq_ok hcommit).1
      rw [Option.toList_none, List.append_nil]
      exact htaken.afterDropped htop.sound.consistent.failure hcommit counters
  | @child top below n t sol hprogress hnone hstack hcommit hvisit =>
      have htop := hs.explores.descends top (hstack ▸ List.mem_cons_self)
      have hfine := htop.sound.consistent.failure
      have htaken := hs.takeNext hprogress hnone hstack (Model.commit_eq_ok hcommit).1
      have hn := htop.afterCommit hcommit ((box_of_commit hcommit hfine).2 rfl).1
      exact (htaken.afterCommit hfine hcommit).afterVisit hroot hsplitting hprogress hnone hn hvisit

theorem Covers.afterSteps (hroot : root.Sound ps) (hsplitting : Splitting root)
    (hs : Covers root ps [] [] s) (h : s.Steps sols t) : Covers root ps sols [] t := by
  induction h with
  | refl => exact hs
  | step _ hstep ih => exact ih.afterStep hroot hsplitting hstep

theorem covers_start (hsome : s.root = some root) (hstack : s.stack = [])
    (hrunning : s.progress = .running) : Covers root ps [] [] s where
  explores := by
    refine ⟨fun n hn => ?_, ?_⟩
    · rw [hsome, Option.some.injEq] at hn
      exact hn.symm
    · rw [hstack]
      simp
  splits := by
    rw [hstack]
    simp
  parts := by
    unfold regions
    rw [hsome, hstack]
    refine ⟨by simp [boxes], ?_⟩
    rintro value ⟨⟨hallows, -⟩, -⟩
    exact ⟨root.store.box, by simp [boxes], hallows⟩
  ended := by
    rw [hrunning]
    intro hended
    contradiction

theorem Covers.pairwise_separate (hs : Covers root ps sols [] s) :
    sols.Pairwise fun a b => Separate a.store.box b.store.box := by
  have hseparate := (List.pairwise_append.mp hs.parts.separate).1
  exact List.pairwise_map.mp hseparate

/-- At the end no region is left, so that what is wanted lies in the solutions. -/
theorem Covers.exists_solution (hs : Covers root ps sols [] s) (hended : s.progress = .exhausted)
    (hvalue : value ∈ wanted root ps s) : ∃ sol ∈ sols, sol.store.Allows value := by
  obtain ⟨hnone, hstack⟩ := hs.ended hended
  obtain ⟨box, hbox, hmem⟩ := hs.parts.covers value hvalue
  unfold regions at hbox
  rw [hnone, hstack] at hbox
  obtain ⟨sol, hsol, rfl⟩ : ∃ sol ∈ sols, sol.store.box = box := by
    simpa [boxes] using hbox
  exact ⟨sol, hsol, hmem⟩

/-- A search that enumerates the solutions of a model and comes to its end has returned each
satisfying assignment in exactly one solution. -/
theorem enumerate_exactly_once {asked : Table Interval} {budget : Budget} {verbosity : Level}
    (hroot : Model.Reachable asked ps root) (hfine : root.store.failure = none)
    (hsplitting : Splitting root) (hreturns : (enumerate root budget verbosity).Returns sols t)
    (hended : t.progress = .exhausted) :
    (∀ value, root.store.Allows value → (∀ p ∈ ps, p.Holds value) →
        ∃! i : Fin sols.length, sols[i].store.Allows value) ∧
      sols.Pairwise fun a b => Separate a.store.box b.store.box := by
  have hsound := hroot.sound hfine
  have hstart : Covers root ps [] [] (enumerate root budget verbosity) := covers_start rfl rfl rfl
  have hcovers := hstart.afterSteps hsound hsplitting hreturns.steps
  have hobjective : t.objective = none := hreturns.steps.objective
  refine ⟨?_, hcovers.pairwise_separate⟩
  intro value hvalue hholds
  have hwanted : value ∈ wanted root ps t := by
    refine ⟨⟨hvalue, hholds⟩, ?_⟩
    intro objective best hsome
    rw [hobjective] at hsome
    contradiction
  obtain ⟨sol, hsol, hallows⟩ := hcovers.exists_solution hended hwanted
  rcases List.mem_iff_getElem.mp hsol with ⟨i, hi, rfl⟩
  refine ⟨⟨i, hi⟩, hallows, ?_⟩
  rintro ⟨j, hj⟩ hother
  have hseparate := List.pairwise_iff_getElem.mp hcovers.pairwise_separate
  rw [Fin.mk.injEq]
  by_contra hne
  rcases Nat.lt_or_gt_of_ne hne with hlt | hlt
  · exact hseparate j i hj hi hlt value hother hallows
  · exact hseparate i j hi hj hlt value hallows hother

theorem splitting_chain : Splitting Model.chain := by
  decide

/-- The chain has been searched to the end, and its assignment of 0 and 1 was found once. -/
theorem enumerate_exactly_once_chain :
    ∃ sols t, (enumerate Model.chain .unlimited .info).Returns sols t ∧
      t.progress = .exhausted ∧ ∃! i : Fin sols.length, sols[i].store.Allows fun x => x.index := by
  obtain ⟨o, hlast, hended⟩ : ∃ o, (enumerate Model.chain .unlimited .info).last 20 = .ok o ∧
      o.search.progress = .exhausted := ⟨_, rfl, rfl⟩
  obtain ⟨sols, hreturns, -⟩ := returns_of_last_eq_ok hlast
  have hall := enumerate_exactly_once Model.reachable_chain rfl splitting_chain hreturns hended
  exact ⟨sols, o.search, hreturns, hended, hall.1 _ (by decide) (by decide)⟩

end Search

end FiniteDomain
