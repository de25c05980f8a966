import FiniteDomain.Proofs.Budgeting

/-!
# Exploration

What a search has explored of its tree.  A node of the tree is known by the way to it from the root: the
choice of each ancestor, and the alternative that was taken there.  The chart of a search is drawn while
it runs and holds the nodes that were explored, each with what became of it.  A search does not keep a
chart, and neither the nodes nor the choices that it has forgotten can be read off its counters; the chart
is what the counters are compared with.

Every node that is counted is one of the chart, and it was an alternative of a choice made before, except
for the root.  So the books balance at any time: the nodes explored, together with the alternatives that
are still open, are the alternatives of all choices and the root.
-/

namespace FiniteDomain

/-- A turn on the way down a search tree: the choice of a node and the alternative taken. -/
structure Turn where
  choice : Choice
  alternative : Nat
deriving DecidableEq, Repr

/-- The way from the root to a node, with a turn for each ancestor, the last one first. -/
abbrev Way := List Turn

/-- What becomes of a node that is explored. -/
inductive Fate
  | failed
  | split (c : Choice)
  | solved
deriving DecidableEq, Repr

namespace Fate

def choice? : Fate → Option Choice
  | split c => some c
  | _ => none

/-- The choices that were made in nodes of these fates. -/
def choices (fates : List Fate) : List Choice :=
  fates.filterMap choice?

@[simp] theorem choices_failed (fates : List Fate) : choices (failed :: fates) = choices fates := rfl

@[simp]
theorem choices_split (c : Choice) (fates : List Fate) :
    choices (split c :: fates) = c :: choices fates := rfl

@[simp] theorem choices_solved (fates : List Fate) : choices (solved :: fates) = choices fates := rfl

/-- Each node has failed, or is a solution, or was split. -/
theorem length_eq (fates : List Fate) :
    fates.length = fates.count failed + fates.count solved + (choices fates).length := by
  induction fates with
  | nil => rfl
  | cons fate rest ih =>
      cases fate with
      | failed =>
          simp [ih]
          omega
      | split c =>
          simp [ih]
          omega
      | solved =>
          simp [ih]
          omega

end Fate

structure ExploredNode where
  way : Way
  fate : Fate
deriving DecidableEq, Repr

structure Chart where
  /-- The ways to the open nodes, the deepest first. -/
  openWays : List Way
  /-- The nodes that were explored, the last one first. -/
  nodes : List ExploredNode
deriving DecidableEq, Repr

namespace Chart

def empty : Chart :=
  ⟨[], []⟩

def fates (chart : Chart) : List Fate :=
  chart.nodes.map ExploredNode.fate

/-- The chart with one more node, which is open if it was split. -/
def add (chart : Chart) (left : List Way) (way : Way) (fate : Fate) : Chart where
  openWays := if fate.choice?.isSome then way :: left else left
  nodes := ⟨way, fate⟩ :: chart.nodes

end Chart

/-- The alternatives of an open node that nobody has taken. -/
def OpenNode.unexplored {P B : Type} (top : OpenNode P B) : Nat :=
  top.choice.alternatives - top.next

/-- The chart with the node that the search explores next: its root, or else the next alternative of its
deepest open node, which stays open unless this is the last one. -/
def Chart.extend {P B : Type} (chart : Chart) (s : Search P B) (fate : Fate) : Chart :=
  match s.root, s.stack, chart.openWays with
  | none, top :: _, way :: ways =>
    let left := if top.next + 1 < top.choice.alternatives then way :: ways else ways
    chart.add left (⟨top.choice, top.next⟩ :: way) fate
  | _, _, ways => chart.add ways [] fate

namespace Search

variable {P B : Type}

/-! ## What a step counts -/

/-- What the fate of a node does to the open nodes and the counters, apart from those of the engine. -/
inductive Tallies (s : Search P B) : Fate → Search P B → Prop
  | failed {t : Search P B} {propagations retired : Nat} (hroot : t.root = s.root)
      (hstack : t.stack = s.stack)
      (hcounters : t.counters =
        { s.counters with
          nodes := s.counters.nodes + 1
          failures := s.counters.failures + 1
          propagations := propagations
          retired := retired }) : Tallies s .failed t
  | split {t : Search P B} {n : Node P B} {c : Choice} {propagations retired : Nat}
      (hroot : t.root = s.root) (hstack : t.stack = ⟨n, c, 0⟩ :: s.stack)
      (hcounters : t.counters =
        { s.counters with
          nodes := s.counters.nodes + 1
          decisions := s.counters.decisions + 1
          propagations := propagations
          retired := retired
          maxDepth := max s.counters.maxDepth (s.stack.length + 1) }) : Tallies s (.split c) t
  | solved {t : Search P B} {propagations retired : Nat} (hroot : t.root = s.root)
      (hstack : t.stack = s.stack)
      (hcounters : t.counters =
        { s.counters with
          nodes := s.counters.nodes + 1
          solutions := s.counters.solutions + 1
          propagations := propagations
          retired := retired }) : Tallies s .solved t

/-- A step rests, or it takes the root, or the next alternative of the deepest open node. -/
inductive Proceeds (s : Search P B) : Option Fate → Search P B → Prop
  | rest {t : Search P B} (hroot : t.root = s.root) (hstack : t.stack = s.stack)
      (hcounters : t.counters = s.counters) : Proceeds s none t
  | root {t : Search P B} {n : Node P B} {fate : Fate} (hroot : s.root = some n)
      (htallies : Tallies { s with root := none } fate t) : Proceeds s (some fate) t
  | descent {t : Search P B} {top : OpenNode P B} {below : List (OpenNode P B)} {fate : Fate}
      (hroot : s.root = none) (hstack : s.stack = top :: below)
      (htallies : Tallies { s with stack := remainder top below } fate t) : Proceeds s (some fate) t

theorem tallies_of_accept {s t : Search P B} {n : Node P B} {event : Event}
    (h : s.accept n = .ok (t, event)) : Tallies s .solved t := by
  unfold accept at h
  split at h
  · obtain ⟨value, -, hresult⟩ := Fault.bind_eq_ok_iff.mp h
    obtain ⟨rfl, -⟩ := Prod.mk.inj (Except.ok.inj hresult)
    exact .solved rfl rfl rfl
  · obtain ⟨rfl, -⟩ := Prod.mk.inj (Except.ok.inj h)
    exact .solved rfl rfl rfl

section Charting

variable [Propagator P] [Brancher B]

/-- What becomes of a node when the search visits it. -/
def fateOf (s : Search P B) (n : Node P B) : Except Fault Fate := do
  match ← s.constrain n with
  | (some _, _) => return .failed
  | (none, n) =>
    match ← Crash.forget n.propagate with
    | (some _, _, _) => return .failed
    | (none, _, n) =>
      match ← n.choose with
      | (some c, _) => return .split c
      | (none, _) => return .solved

/-- What becomes of the next alternative of an open node. -/
def fateBelow (s : Search P B) (top : OpenNode P B) : Except Fault Fate := do
  match ← top.node.commit top.choice top.next with
  | (.error _, _) => return .failed
  | (.ok (), n) => s.fateOf n

/-- What becomes of the node that the search explores next, if it explores one at all. -/
def nextFate (s : Search P B) : Except Fault (Option Fate) :=
  if s.progress ≠ .running ∨ s.isLimitReached then
    return none
  else
    match s.root, s.stack with
    | some n, _ => return some (← s.fateOf n)
    | none, [] => return none
    | none, top :: _ => return some (← s.fateBelow top)

/-- The searches that any number of steps lead to, with the charts of what they have explored. -/
inductive Explored (s : Search P B) : Chart → Search P B → Prop
  | start : Explored s .empty s
  | rest {t : Search P B} {chart : Chart} {o : Outcome P B} (h : Explored s chart t)
      (hfate : t.nextFate = .ok none) (hstep : t.step = .ok o) : Explored s chart o.search
  | node {t : Search P B} {chart : Chart} {fate : Fate} {o : Outcome P B} (h : Explored s chart t)
      (hfate : t.nextFate = .ok (some fate)) (hstep : t.step = .ok o) :
      Explored s (chart.extend t fate) o.search

variable {s t : Search P B} {n : Node P B} {o : Outcome P B} {chart : Chart}

/-- A visit counts the node by its fate. -/
theorem tallies_of_visit (h : s.visit n = .ok o) :
    ∃ fate, s.fateOf n = .ok fate ∧ Tallies s fate o.search := by
  unfold visit at h
  unfold fateOf
  obtain ⟨⟨unimproved, n₁⟩, hconstrain, hrest⟩ := Fault.bind_eq_ok_iff.mp h
  rw [Crash.after_eq_ok_iff] at hconstrain
  rw [hconstrain]
  cases unimproved with
  | some w =>
      rw [← Except.ok.inj hrest]
      exact ⟨.failed, rfl, .failed rfl rfl rfl⟩
  | none =>
      obtain ⟨⟨failure, events, n₂⟩, hpropagate, hpropagated⟩ := Fault.bind_eq_ok_iff.mp hrest
      simp only [bind, Except.bind, hpropagate, Crash.forget]
      cases failure with
      | some w =>
          rw [← Except.ok.inj hpropagated]
          exact ⟨.failed, rfl, .failed rfl rfl rfl⟩
      | none =>
          obtain ⟨⟨choice, n₃⟩, hchoose, hchosen⟩ := Fault.bind_eq_ok_iff.mp hpropagated
          rw [Crash.after_eq_ok_iff] at hchoose
          simp only [hchoose]
          cases choice with
          | some c =>
              rw [← Except.ok.inj hchosen]
              exact ⟨.split c, rfl, .split rfl rfl rfl⟩
          | none =>
              obtain ⟨⟨u, event⟩, haccept, hdone⟩ := Fault.bind_eq_ok_iff.mp hchosen
              rw [Crash.after_eq_ok_iff] at haccept
              rw [← Except.ok.inj hdone]
              refine ⟨.solved, rfl, ?_⟩
              cases tallies_of_accept haccept with
              | solved hroot hstack hcounters => exact .solved hroot hstack hcounters

/-- An alternative is counted in the same way, and as a failure if its commit fails. -/
theorem tallies_of_descend {top : OpenNode P B} {below : List (OpenNode P B)}
    (h : s.descend top below = .ok o) :
    ∃ fate, s.fateBelow top = .ok fate ∧
      Tallies { s with stack := remainder top below } fate o.search := by
  unfold descend at h
  extract_lets alternative stack rest commits at h
  -- the search may describe the alternative first, which counts nothing
  have hcommits : ∀ taken, commits taken = .ok o → ∃ fate, s.fateBelow top = .ok fate ∧
      Tallies { s with stack := remainder top below } fate o.search := by
    intro taken htaken
    unfold fateBelow
    obtain ⟨⟨reply, n⟩, hcommit, hreply⟩ := Fault.bind_eq_ok_iff.mp htaken
    rw [Crash.after_eq_ok_iff] at hcommit
    simp only [alternative] at hcommit
    rw [hcommit]
    cases reply with
    | error w =>
        rw [← Except.ok.inj hreply]
        exact ⟨.failed, rfl, .failed rfl rfl rfl⟩
    | ok u =>
        obtain ⟨o', hvisit, ho⟩ := Outcome.mapEvents_eq_ok_iff.mp hreply
        rw [ho]
        exact tallies_of_visit hvisit
  split at h
  · obtain ⟨description, -, hrest⟩ := Fault.bind_eq_ok_iff.mp h
    exact hcommits _ hrest
  · exact hcommits _ h

theorem proceeds_of_step (h : s.step = .ok o) :
    ∃ fate, s.nextFate = .ok fate ∧ Proceeds s fate o.search := by
  unfold step at h
  obtain ⟨o', hexplore, rfl⟩ := Outcome.mapEvents_eq_ok_iff.mp h
  unfold explore at hexplore
  unfold nextFate
  split at hexplore
  · rename_i hprogress
    rw [if_pos (Or.inl hprogress), ← Except.ok.inj hexplore]
    exact ⟨none, rfl, .rest rfl rfl rfl⟩
  · rename_i hprogress
    split at hexplore
    · rename_i hlimit
      rw [if_pos (Or.inr hlimit), ← Except.ok.inj hexplore]
      exact ⟨none, rfl, .rest rfl rfl rfl⟩
    · rename_i hlimit
      rw [if_neg (not_or.mpr ⟨hprogress, hlimit⟩)]
      cases hroot : s.root with
      | some n =>
          rw [hroot] at hexplore
          obtain ⟨fate, hfate, htallies⟩ := tallies_of_visit hexplore
          have hsame : s.fateOf n = .ok fate := hfate
          simp only [hsame]
          exact ⟨some fate, rfl, .root hroot htallies⟩
      | none =>
          rw [hroot] at hexplore
          cases hstack : s.stack with
          | nil =>
              rw [hstack] at hexplore
              rw [← Except.ok.inj hexplore]
              exact ⟨none, rfl, .rest hroot.symm hstack.symm rfl⟩
          | cons top below =>
              rw [hstack] at hexplore
              obtain ⟨fate, hfate, htallies⟩ := tallies_of_descend hexplore
              simp only [hfate]
              exact ⟨some fate, rfl, .descent hroot hstack htallies⟩

/-- The chart and the search after so many steps. -/
def survey (s : Search P B) : Nat → Except Fault (Chart × Search P B)
  | 0 => .ok (.empty, s)
  | steps + 1 => do
    let (chart, t) ← s.survey steps
    let fate ← t.nextFate
    let o ← Crash.forget t.step
    match fate with
    | none => return (chart, o.search)
    | some fate => return (chart.extend t fate, o.search)

theorem explored_of_survey {steps : Nat} (h : s.survey steps = .ok (chart, t)) :
    s.Explored chart t := by
  induction steps generalizing chart t with
  | zero =>
      obtain ⟨rfl, rfl⟩ := Prod.mk.inj (Except.ok.inj h)
      exact .start
  | succ steps ih =>
      obtain ⟨⟨before, r⟩, hbefore, hrest⟩ := Fault.bind_eq_ok_iff.mp h
      obtain ⟨fate, hfate, hrest⟩ := Fault.bind_eq_ok_iff.mp hrest
      obtain ⟨o, hstep, hdone⟩ := Fault.bind_eq_ok_iff.mp hrest
      rw [Crash.forget_eq_ok_iff] at hstep
      cases fate with
      | none =>
          obtain ⟨rfl, rfl⟩ := Prod.mk.inj (Except.ok.inj hdone)
          exact (ih hbefore).rest hfate hstep
      | some fate =>
          obtain ⟨rfl, rfl⟩ := Prod.mk.inj (Except.ok.inj hdone)
          exact (ih hbefore).node hfate hstep

/-- Whatever was returned, there is a chart of what was explored. -/
theorem Returns.exists_explored {sols : List Solution} (h : s.Returns sols t) :
    ∃ chart, s.Explored chart t := by
  have hkeeps : ∀ {r : Search P B} {o : Outcome P B}, (∃ chart, s.Explored chart r) →
      r.step = .ok o → ∃ chart, s.Explored chart o.search := by
    rintro r o ⟨chart, hchart⟩ hstep
    obtain ⟨fate, hfate, -⟩ := proceeds_of_step hstep
    cases fate with
    | none => exact ⟨chart, hchart.rest hfate hstep⟩
    | some fate => exact ⟨chart.extend r fate, hchart.node hfate hstep⟩
  exact h.invariant hkeeps ⟨.empty, .start⟩

end Charting

/-! ## The books -/

/-- The nodes that the search knows of and has not explored: its root, if it was not taken, and the
alternatives of the open nodes that were not taken. -/
def unexplored (s : Search P B) : Nat :=
  (if s.root.isSome then 1 else 0) + (s.stack.map OpenNode.unexplored).sum

end Search

/-- The counters count the nodes of these fates, each kind by itself. -/
structure Counted (fates : List Fate) (counters : Counters) : Prop where
  nodes : counters.nodes = fates.length
  failures : counters.failures = fates.count .failed
  solutions : counters.solutions = fates.count .solved
  decisions : counters.decisions = (Fate.choices fates).length

theorem Counted.nodes_eq {fates : List Fate} {counters : Counters} (h : Counted fates counters) :
    counters.nodes = counters.failures + counters.solutions + counters.decisions := by
  rw [h.nodes, h.failures, h.solutions, h.decisions]
  exact Fate.length_eq fates

namespace Search

variable {P B : Type} {s t : Search P B} {fates : List Fate} {fate : Fate}

/-- The nodes explored and those that are known to be left are the root and the alternatives of all
choices. -/
structure Balances (fates : List Fate) (s : Search P B) : Prop where
  counted : Counted fates s.counters
  next_lt : ∀ top ∈ s.stack, top.next < top.choice.alternatives
  balance : s.counters.nodes + s.unexplored =
    1 + ((Fate.choices fates).map Choice.alternatives).sum

theorem Tallies.counted (h : Tallies s fate t) (hs : Counted fates s.counters) :
    Counted (fate :: fates) t.counters := by
  cases h with
  | failed _ _ hcounters =>
      rw [hcounters]
      constructor <;> simp [hs.nodes, hs.failures, hs.solutions, hs.decisions]
  | split _ _ hcounters =>
      rw [hcounters]
      constructor <;> simp [hs.nodes, hs.failures, hs.solutions, hs.decisions]
  | solved _ _ hcounters =>
      rw [hcounters]
      constructor <;> simp [hs.nodes, hs.failures, hs.solutions, hs.decisions]

/-- A node that was taken and is not counted yet is what the books lack, and its visit settles them. -/
theorem Tallies.balances (h : Tallies s fate t) (hs : Counted fates s.counters)
    (hnext : ∀ top ∈ s.stack, top.next < top.choice.alternatives)
    (hlacks : s.counters.nodes + 1 + s.unexplored =
      1 + ((Fate.choices fates).map Choice.alternatives).sum) : Balances (fate :: fates) t := by
  have hcounted := h.counted hs
  unfold unexplored at hlacks
  cases h with
  | failed hroot hstack hcounters =>
      refine ⟨hcounted, hstack ▸ hnext, ?_⟩
      unfold unexplored
      rw [hroot, hstack, hcounters, Fate.choices_failed]
      dsimp only
      omega
  | @split t n c _ _ hroot hstack hcounters =>
      constructor
      · exact hcounted
      · rw [hstack]
        exact List.forall_mem_cons.mpr ⟨c.alternatives_pos, hnext⟩
      · unfold unexplored
        rw [hroot, hstack, hcounters, Fate.choices_split]
        simp only [List.map_cons, List.sum_cons, OpenNode.unexplored]
        omega
  | solved hroot hstack hcounters =>
      refine ⟨hcounted, hstack ▸ hnext, ?_⟩
      unfold unexplored
      rw [hroot, hstack, hcounters, Fate.choices_solved]
      dsimp only
      omega

/-- Taking the next alternative of an open node leaves one less. -/
theorem unexplored_remainder {top : OpenNode P B} {below : List (OpenNode P B)}
    (hnext : top.next < top.choice.alternatives) :
    ((remainder top below).map OpenNode.unexplored).sum + 1 =
      ((top :: below).map OpenNode.unexplored).sum := by
  unfold remainder
  split
  · simp only [List.map_cons, List.sum_cons, OpenNode.unexplored]
    omega
  · simp only [List.map_cons, List.sum_cons, OpenNode.unexplored]
    omega

theorem next_lt_of_mem_remainder {top other : OpenNode P B} {below : List (OpenNode P B)}
    (hbelow : ∀ other ∈ below, other.next < other.choice.alternatives)
    (hother : other ∈ remainder top below) : other.next < other.choice.alternatives := by
  unfold remainder at hother
  split at hother
  · rename_i hmore
    rcases List.mem_cons.mp hother with rfl | hmem
    · exact hmore
    · exact hbelow other hmem
  · exact hbelow other hother

/-- A step that explores a node has taken it off the books, and enters it again by its fate. -/
theorem Balances.afterNode (hs : Balances fates s) (h : Proceeds s (some fate) t) :
    Balances (fate :: fates) t := by
  have hbalance := hs.balance
  unfold unexplored at hbalance
  cases h with
  | root hroot htallies =>
      refine htallies.balances hs.counted hs.next_lt ?_
      rw [hroot] at hbalance
      simp only [unexplored, Option.isSome_some, Option.isSome_none, if_true, Bool.false_eq_true,
        if_false] at hbalance ⊢
      omega
  | @descent _ top below _ hroot hstack htallies =>
      have hnext := hs.next_lt
      rw [hstack] at hnext hbalance
      obtain ⟨htop, hbelow⟩ := List.forall_mem_cons.mp hnext
      have htaken : ((remainder top below).map OpenNode.unexplored).sum + 1 =
          ((top :: below).map OpenNode.unexplored).sum := unexplored_remainder htop
      refine htallies.balances hs.counted (fun other => next_lt_of_mem_remainder hbelow) ?_
      simp only [unexplored]
      omega

theorem Balances.afterRest (hs : Balances fates s) (h : Proceeds s none t) : Balances fates t := by
  cases h with
  | rest hroot hstack hcounters =>
      have hunexplored : t.unexplored = s.unexplored := by
        unfold unexplored
        rw [hroot, hstack]
      refine ⟨hcounters ▸ hs.counted, hstack ▸ hs.next_lt, ?_⟩
      rw [hcounters, hunexplored]
      exact hs.balance

@[simp]
theorem fates_extend (chart : Chart) (s : Search P B) (fate : Fate) :
    (chart.extend s fate).fates = fate :: chart.fates := by
  unfold Chart.extend
  split <;> rfl

variable {root : Node P B} {objective : Option Objective} {verbosity : Level} {budget : Budget}
  {sols : List Solution}

theorem balances_start :
    Balances [] ((start root objective verbosity).within budget) := by
  rw [start_eq]
  constructor
  · exact ⟨rfl, rfl, rfl, rfl⟩
  · intro top htop
    contradiction
  · rfl

variable [Propagator P] [Brancher B]

/-- What holds at the start, and after each step that rests or explores a node, holds of every search
with its chart. -/
theorem Explored.invariant (Keeps : Chart → Search P B → Prop)
    (hrest : ∀ {chart : Chart} {s t : Search P B}, Keeps chart s → Proceeds s none t → Keeps chart t)
    (hnode : ∀ {chart : Chart} {s t : Search P B} {fate : Fate}, Keeps chart s →
      Proceeds s (some fate) t → Keeps (chart.extend s fate) t)
    {chart : Chart} (h : s.Explored chart t) (hs : Keeps .empty s) : Keeps chart t := by
  induction h with
  | start => exact hs
  | rest _ hfate hstep ih =>
      obtain ⟨fate, hsame, hproceeds⟩ := proceeds_of_step hstep
      obtain rfl := Except.ok.inj (hfate.symm.trans hsame)
      exact hrest ih hproceeds
  | node _ hfate hstep ih =>
      obtain ⟨fate, hsame, hproceeds⟩ := proceeds_of_step hstep
      obtain rfl := Except.ok.inj (hfate.symm.trans hsame)
      exact hnode ih hproceeds

/-- The counters of a search count the nodes that were explored by their fates.  Each node was the root or
an alternative of a choice, so the nodes explored and those that the search knows to be left are the root
and the alternatives of all the choices that were made.  Once the search is exhausted, nothing is left. -/
theorem nodes_accounted (hreturns : ((start root objective verbosity).within budget).Returns sols t) :
    (∃ chart, ((start root objective verbosity).within budget).Explored chart t) ∧
    ∀ chart, ((start root objective verbosity).within budget).Explored chart t →
      Counted chart.fates t.counters ∧
      t.counters.nodes = t.counters.failures + t.counters.solutions + t.counters.decisions ∧
      (∀ top ∈ t.stack, top.next < top.choice.alternatives) ∧
      t.counters.nodes + (if t.root.isSome then 1 else 0) + (t.stack.map OpenNode.unexplored).sum =
        1 + ((Fate.choices chart.fates).map Choice.alternatives).sum ∧
      (t.progress = .exhausted →
        t.counters.nodes = 1 + ((Fate.choices chart.fates).map Choice.alternatives).sum) := by
  refine ⟨hreturns.exists_explored, ?_⟩
  intro chart hchart
  have hnode : ∀ {chart : Chart} {s t : Search P B} {fate : Fate}, Balances chart.fates s →
      Proceeds s (some fate) t → Balances (chart.extend s fate).fates t := by
    intro chart s t fate hs h
    rw [fates_extend]
    exact hs.afterNode h
  have hbooks : Balances chart.fates t :=
    hchart.invariant (fun chart s => Balances chart.fates s) Balances.afterRest hnode balances_start
  have hbalance := hbooks.balance
  unfold unexplored at hbalance
  refine ⟨hbooks.counted, hbooks.counted.nodes_eq, hbooks.next_lt, by omega, ?_⟩
  intro hexhausted
  obtain ⟨hroot, hstack⟩ := hreturns.inBudget.isExplored hexhausted
  rw [hroot, hstack] at hbalance
  simpa using hbalance

/-- One variable from 0 to 3, with five alternatives that all exceed it. -/
def deadEnds : Model :=
  let (x, m) := (Node.empty : Model).newVar 0 3
  (m.branch (.caseSplit ⟨x, Array.replicate 5 ⟨4, 4⟩⟩)).2

/-- With three nodes to spend, the root is split and two of the five alternatives fail. -/
theorem nodes_accounted_deadEnds :
    ∃ t chart, ((start deadEnds none .info).within (.upTo 3)).Returns [] t ∧
      ((start deadEnds none .info).within (.upTo 3)).Explored chart t ∧ t.progress = .interrupted ∧
      t.counters.nodes = 3 ∧ t.counters.failures = 2 ∧ t.counters.solutions = 0 ∧
      t.counters.decisions = 1 ∧ (t.stack.map OpenNode.unexplored).sum = 3 ∧
      ((Fate.choices chart.fates).map Choice.alternatives).sum = 5 := by
  obtain ⟨o, hnext, hnone, hroot, hinterrupted, hnodes, hfailures, hsolutions, hunexplored⟩ :
      ∃ o, ((start deadEnds none .info).within (.upTo 3)).next 9 = .ok o ∧ o.solution = none ∧
        o.search.root.isSome = false ∧ o.search.progress = .interrupted ∧
        o.search.counters.nodes = 3 ∧ o.search.counters.failures = 2 ∧
        o.search.counters.solutions = 0 ∧
        (o.search.stack.map OpenNode.unexplored).sum = 3 :=
    ⟨_, rfl, rfl, rfl, rfl, rfl, rfl, rfl, rfl⟩
  have hreturns := Returns.start.call hnext
  rw [hnone] at hreturns
  obtain ⟨⟨chart, hchart⟩, haccounts⟩ := nodes_accounted hreturns
  obtain ⟨-, htotal, -, hbalance, -⟩ := haccounts chart hchart
  rw [hroot] at hbalance
  simp only [Bool.false_eq_true, if_false] at hbalance
  exact ⟨o.search, chart, hreturns, hchart, hinterrupted, hnodes, hfailures, hsolutions, by omega,
    hunexplored, by omega⟩

end Search

end FiniteDomain
