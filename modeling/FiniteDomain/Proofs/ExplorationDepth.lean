import FiniteDomain.Proofs.Exploration

/-!
# Depth of exploration

How deep a search has been, and what its counter says.  The level of a node is one more than the number of
its ancestors.  The counter goes by the number of open nodes, and an open node is dropped when its last
alternative is taken, before that alternative is explored.  So an ancestor is missed below its last
alternative, and what the counter holds is the greatest number of ancestors that were open, over the nodes
that were split.

The counter is never above the depth, and it is the depth only if one of the deepest splits was reached
without a last alternative on the way.
-/

namespace FiniteDomain

/-- Are there alternatives after this one, so that the node stays open? -/
def Turn.staysOpen (turn : Turn) : Bool :=
  turn.alternative + 1 < turn.choice.alternatives

namespace Way

/-- The ancestors that are open while the node is explored. -/
def openAncestors (way : Way) : Nat :=
  way.countP Turn.staysOpen

theorem openAncestors_le_length (way : Way) : way.openAncestors ≤ way.length :=
  List.countP_le_length

theorem openAncestors_eq_length_iff {way : Way} :
    way.openAncestors = way.length ↔ ∀ turn ∈ way, turn.staysOpen :=
  List.countP_eq_length

end Way

namespace Chart

/-- The ways to the nodes in which a choice was made. -/
def splits (chart : Chart) : List Way :=
  (chart.nodes.filter fun node => node.fate.choice?.isSome).map ExploredNode.way

/-- The greatest level of a split, if levels are told in this way. -/
def deepest (level : Way → Nat) (chart : Chart) : Nat :=
  (chart.splits.map level).foldr max ⊥

/-- The greatest number of choices along a path of the tree. -/
def depth (chart : Chart) : Nat :=
  chart.deepest fun way => way.length + 1

variable {level : Way → Nat} {chart : Chart} {left : List Way} {way : Way}

theorem le_deepest (level : Way → Nat) (h : way ∈ chart.splits) : level way ≤ chart.deepest level :=
  List.le_max_of_le (List.mem_map_of_mem h) le_rfl

theorem length_lt_depth (h : way ∈ chart.splits) : way.length < chart.depth :=
  le_deepest (fun way => way.length + 1) h

theorem deepest_le {bound : Nat} (h : ∀ way ∈ chart.splits, level way ≤ bound) :
    chart.deepest level ≤ bound :=
  List.max_le_of_forall_le _ _ (List.forall_mem_map.mpr h)

/-- If there is a split at all, one of them is the deepest. -/
theorem exists_deepest (level : Way → Nat) (h : way ∈ chart.splits) :
    ∃ other ∈ chart.splits, level other = chart.deepest level := by
  by_contra! hnone
  -- if all levels were lower than the maximum, the maximum would be lower too
  have hbelow : ∀ other ∈ chart.splits, level other ≤ chart.deepest level - 1 := by
    intro other hother
    have hle := le_deepest level hother
    have hne := hnone other hother
    omega
  have hle := le_deepest level h
  have hne := hnone way h
  have hdeepest := deepest_le hbelow
  omega

theorem deepest_add_split (c : Choice) :
    (chart.add left way (.split c)).deepest level = max (level way) (chart.deepest level) :=
  rfl

theorem deepest_add_failed : (chart.add left way .failed).deepest level = chart.deepest level :=
  rfl

theorem deepest_add_solved : (chart.add left way .solved).deepest level = chart.deepest level :=
  rfl

/-- Levels that are told by the open ancestors are the true ones if a deepest split has no others. -/
theorem deepest_openAncestors_eq_depth_iff :
    (chart.deepest fun way => way.openAncestors + 1) = chart.depth ↔
      ∀ way ∈ chart.splits, ∃ other ∈ chart.splits,
        way.length ≤ other.length ∧ ∀ turn ∈ other, turn.staysOpen := by
  constructor
  · intro hsame way hway
    obtain ⟨other, hother, hdeepest⟩ := exists_deepest (fun way => way.openAncestors + 1) hway
    have hlevel := length_lt_depth hway
    have hbelow := length_lt_depth hother
    have hopen := other.openAncestors_le_length
    refine ⟨other, hother, by omega, ?_⟩
    exact Way.openAncestors_eq_length_iff.mp (by omega)
  · intro hopen
    apply le_antisymm
    · apply deepest_le
      intro way hway
      have hlevel := length_lt_depth hway
      have hle := way.openAncestors_le_length
      omega
    · apply deepest_le
      intro way hway
      obtain ⟨other, hother, hlonger, hstays⟩ := hopen way hway
      have hlevel := le_deepest (fun way => way.openAncestors + 1) hother
      rw [Way.openAncestors_eq_length_iff.mpr hstays] at hlevel
      omega

end Chart

namespace Search

variable {P B : Type} {s t : Search P B} {chart : Chart} {way : Way} {left : List Way} {fate : Fate}

theorem levels_cons (top : OpenNode P B) (below : List (OpenNode P B)) :
    (List.range (top :: below).length).reverse =
      below.length :: (List.range below.length).reverse := by
  rw [List.length_cons, List.range_succ, List.reverse_concat]

/-- The open nodes of a search and the ways to them: below each, only ancestors of it are open.  The
root is the only node without any. -/
structure Levels (chart : Chart) (s : Search P B) : Prop where
  openWays : chart.openWays.map Way.openAncestors = (List.range s.stack.length).reverse
  stack_of_root : s.root.isSome → s.stack = []
  maxDepth : s.counters.maxDepth = chart.deepest fun way => way.openAncestors + 1

/-- A node whose open ancestors are the open nodes is entered on the level that the counter says. -/
theorem Tallies.levels (h : Tallies s fate t) (hroot : s.root = none)
    (hways : left.map Way.openAncestors = (List.range s.stack.length).reverse)
    (hway : way.openAncestors = s.stack.length)
    (hdepth : s.counters.maxDepth = chart.deepest fun way => way.openAncestors + 1) :
    Levels (chart.add left way fate) t := by
  cases h with
  | failed hroot' hstack hcounters =>
      refine ⟨hstack ▸ hways, by simp [hroot', hroot], ?_⟩
      rw [hcounters, Chart.deepest_add_failed]
      exact hdepth
  | @split t n c _ _ hroot' hstack hcounters =>
      refine ⟨?_, by simp [hroot', hroot], ?_⟩
      · rw [hstack, levels_cons, ← hways, ← hway]
        rfl
      · rw [hcounters, Chart.deepest_add_split, hway, ← hdepth]
        exact max_comm _ _
  | solved hroot' hstack hcounters =>
      refine ⟨hstack ▸ hways, by simp [hroot', hroot], ?_⟩
      rw [hcounters, Chart.deepest_add_solved]
      exact hdepth

theorem Levels.afterRest (hs : Levels chart s) (h : Proceeds s none t) : Levels chart t := by
  cases h with
  | rest hroot hstack hcounters =>
      refine ⟨hstack ▸ hs.openWays, ?_, hcounters ▸ hs.maxDepth⟩
      rw [hroot, hstack]
      exact hs.stack_of_root

/-- An open node is dropped with its last alternative, and that is the turn that does not leave it
open. -/
theorem Levels.afterNode (hs : Levels chart s) (h : Proceeds s (some fate) t) :
    Levels (chart.extend s fate) t := by
  cases h with
  | @root _ n _ hroot htallies =>
      have hstack : s.stack = [] := hs.stack_of_root (by rw [hroot]; rfl)
      have hways := hs.openWays
      rw [hstack] at hways
      have hextend : chart.extend s fate = chart.add chart.openWays [] fate := by
        unfold Chart.extend
        rw [hroot]
      rw [hextend]
      refine htallies.levels rfl ?_ ?_ hs.maxDepth
      · rw [hways, hstack]
      · rw [hstack]
        rfl
  | @descent _ top below _ hroot hstack htallies =>
      have hways := hs.openWays
      rw [hstack, levels_cons] at hways
      obtain ⟨way, ways, hopen, hway, hbelow⟩ := List.map_eq_cons_iff.mp hways
      unfold Chart.extend
      rw [hroot, hstack, hopen]
      dsimp only
      unfold remainder at htallies
      by_cases hmore : top.next + 1 < top.choice.alternatives
      · rw [if_pos hmore] at htallies ⊢
        refine htallies.levels hroot ?_ ?_ hs.maxDepth
        · rw [levels_cons, List.map_cons, hway, hbelow]
        · simp [Way.openAncestors, Turn.staysOpen, hmore, ← hway]
      · rw [if_neg hmore] at htallies ⊢
        refine htallies.levels hroot hbelow ?_ hs.maxDepth
        simp [Way.openAncestors, Turn.staysOpen, hmore, ← hway]

variable {root : Node P B} {objective : Option Objective} {verbosity : Level} {budget : Budget}
  {sols : List Solution}

theorem levels_start : Levels .empty ((start root objective verbosity).within budget) := by
  rw [start_eq]
  exact ⟨rfl, fun _ => rfl, rfl⟩

variable [Propagator P] [Brancher B]

/-- The counter holds the greatest number of open ancestors of a split, with the split itself.  It is
never above the depth of the tree that was explored, and it is the depth if no deeper split than those
without a last alternative on their way was reached, and only then. -/
theorem maxDepth_eq_depth_iff
    (hreturns : ((start root objective verbosity).within budget).Returns sols t) :
    (∃ chart, ((start root objective verbosity).within budget).Explored chart t) ∧
    ∀ chart, ((start root objective verbosity).within budget).Explored chart t →
      t.counters.maxDepth = (chart.deepest fun way => way.openAncestors + 1) ∧
      t.counters.maxDepth ≤ chart.depth ∧
      (t.counters.maxDepth = chart.depth ↔
        ∀ way ∈ chart.splits, ∃ other ∈ chart.splits,
          way.length ≤ other.length ∧ ∀ turn ∈ other, turn.staysOpen) := by
  refine ⟨hreturns.exists_explored, ?_⟩
  intro chart hchart
  have hlevels : Levels chart t :=
    hchart.invariant Levels Levels.afterRest Levels.afterNode levels_start
  rw [hlevels.maxDepth]
  refine ⟨rfl, ?_, Chart.deepest_openAncestors_eq_depth_iff⟩
  apply Chart.deepest_le
  intro way hway
  have hlevel := Chart.length_lt_depth hway
  have hle := way.openAncestors_le_length
  omega

/-- One variable from 0 to 2, so that the last alternative of the root is split once more. -/
def staircase : Model :=
  let (x, m) := (Node.empty : Model).newVar 0 2
  (m.branch (.labelling (.ascending [x]))).2

/-- The second solution is found below the second split, and the root is no longer open by then. -/
theorem staircase_split_twice :
    ∃ sols t chart, ((start staircase none .info).within .unlimited).Returns sols t ∧
      ((start staircase none .info).within .unlimited).Explored chart t ∧
      sols.length = 2 ∧ t.counters.maxDepth = 1 ∧ chart.depth = 2 := by
  obtain ⟨first, second, chart, t, hfirst, hsecond, hsurvey, rfl, hsols, hmax, hdepth⟩ :
      ∃ first second chart t,
        ((start staircase none .info).within .unlimited).next 2 = .ok first ∧
        first.search.next 2 = .ok second ∧
        ((start staircase none .info).within .unlimited).survey 4 = .ok (chart, t) ∧
        second.search = t ∧
        (first.solution.toList ++ second.solution.toList).length = 2 ∧
        t.counters.maxDepth = 1 ∧ chart.depth = 2 :=
    ⟨_, _, _, _, rfl, rfl, rfl, rfl, rfl, rfl, rfl⟩
  exact ⟨_, _, chart, (Returns.start.call hfirst).call hsecond, explored_of_survey hsurvey, hsols,
    hmax, hdepth⟩

/-- After two solutions the counter is not the depth, since the deepest split is below a last
alternative. -/
theorem maxDepth_eq_depth_iff_staircase :
    ∃ sols t chart, ((start staircase none .info).within .unlimited).Returns sols t ∧
      ((start staircase none .info).within .unlimited).Explored chart t ∧
      t.counters.maxDepth < chart.depth ∧
      ∃ way ∈ chart.splits, ∀ other ∈ chart.splits, way.length ≤ other.length →
        ∃ turn ∈ other, turn.staysOpen = false := by
  obtain ⟨sols, t, chart, hreturns, hchart, -, hmax, hdepth⟩ := staircase_split_twice
  obtain ⟨-, hcharts⟩ := maxDepth_eq_depth_iff hreturns
  obtain ⟨-, -, hiff⟩ := hcharts chart hchart
  refine ⟨sols, t, chart, hreturns, hchart, by omega, ?_⟩
  have hnot := mt hiff.mpr (by omega)
  push Not at hnot
  simpa using hnot

/-- The counter is one too small in a search for two solutions of the staircase. -/
theorem exists_maxDepth_ne_depth :
    ¬ ∀ (root : Model) (objective : Option Objective) (verbosity : Level) (budget : Budget)
      (sols : List Solution) (t : Search Constraint Strategy) (chart : Chart),
      ((start root objective verbosity).within budget).Returns sols t →
      ((start root objective verbosity).within budget).Explored chart t →
      t.counters.maxDepth = chart.depth := by
  intro hall
  obtain ⟨sols, t, chart, hreturns, hchart, -, hmax, hdepth⟩ := staircase_split_twice
  have hsame := hall staircase none .info .unlimited sols t chart hreturns hchart
  omega

end Search

end FiniteDomain
