import FiniteDomain.Proofs.SearchOptimality

/-!
# Order of solutions

A search takes the alternatives of a choice one after the other, and goes through the whole of one
before it turns to the next.  If an order of the assignments is such that each alternative lies before
the later ones, then the regions that the search has still to look at are in order too, and they come
after the solutions that it has found.  So the solutions are found in this order, whatever
propagation leaves of a region, and whatever an objective cuts away.
-/

namespace FiniteDomain

/-- All assignments of the first region come before those of the second one. -/
def Precedes (before : (Var → Int) → (Var → Int) → Prop) (a b : Set (Var → Int)) : Prop :=
  ∀ value ∈ a, ∀ other ∈ b, before value other

theorem Precedes.mono {before : (Var → Int) → (Var → Int) → Prop} {a a' b b' : Set (Var → Int)}
    (h : Precedes before a b) (ha : a' ⊆ a) (hb : b' ⊆ b) : Precedes before a' b' := by
  intro value hvalue other hother
  exact h value (ha hvalue) other (hb hother)

namespace Search

variable {before : (Var → Int) → (Var → Int) → Prop} {root n : Model} {ps : List Posting}
  {s t : Search Constraint Strategy} {sol : Option Solution} {sols : List Solution} {c : Choice}

/-- Each alternative of the choice lies before the later ones. -/
def Ascends (before : (Var → Int) → (Var → Int) → Prop) (n : Model) (c : Choice) : Prop :=
  ∀ i j, i < j → j < c.alternatives →
    Precedes before (n.store.box ∩ granted n c i) (n.store.box ∩ granted n c j)

/-- The choices that are made below the root have their alternatives in order. -/
def Directs (before : (Var → Int) → (Var → Int) → Prop) (root : Model) (ps : List Posting) : Prop :=
  ∀ n c n', root.Descends ps n → n.choose = .ok (some c, n') → Ascends before n' c

/-- The regions of a search are in order, after its solutions. -/
structure InOrder (before : (Var → Int) → (Var → Int) → Prop) (sols : List Solution)
    (pending : List (Set (Var → Int))) (s : Search Constraint Strategy) : Prop where
  regions : (boxes sols ++ (pending ++ regions s)).Pairwise (Precedes before)
  ascends : ∀ top ∈ s.stack, Ascends before top.node top.choice

theorem InOrder.replace {pending pieces : List (Set (Var → Int))} {region : Set (Var → Int)}
    (hs : InOrder before sols (region :: pending) s) (hpieces : pieces.Pairwise (Precedes before))
    (hsub : ∀ piece ∈ pieces, piece ⊆ region) : InOrder before sols (pieces ++ pending) s where
  regions := by
    rw [List.append_assoc]
    exact pairwise_replace Precedes.mono hs.regions hpieces hsub
  ascends := hs.ascends

theorem InOrder.shrink {region region' : Set (Var → Int)} (hs : InOrder before sols [region] s)
    (hsub : region' ⊆ region) : InOrder before sols [region'] s := by
  apply hs.replace (List.pairwise_singleton _ region')
  intro piece hpiece
  rw [List.mem_singleton.mp hpiece]
  exact hsub

theorem InOrder.drop {region : Set (Var → Int)} (hs : InOrder before sols [region] s) :
    InOrder before sols [] s := by
  apply hs.replace List.Pairwise.nil
  intro piece hpiece
  exact absurd hpiece List.not_mem_nil

/-- The order depends on the open nodes and on the root, and on nothing else. -/
theorem InOrder.congr {pending : List (Set (Var → Int))} (hs : InOrder before sols pending s)
    (hroot : t.root = s.root) (hstack : t.stack = s.stack) : InOrder before sols pending t where
  regions := by
    unfold Search.regions
    rw [hroot, hstack]
    exact hs.regions
  ascends := by
    rw [hstack]
    exact hs.ascends

theorem InOrder.takeRoot (hs : InOrder before sols [] s) (hsome : s.root = some n) :
    InOrder before sols [n.store.box] { s with root := none } where
  regions := by
    have hregions := hs.regions
    unfold Search.regions at hregions
    rw [hsome] at hregions
    exact hregions
  ascends := hs.ascends

/-- The next alternative of an open node comes before the rest of its region. -/
theorem InOrder.takeNext {top : OpenNode Constraint Strategy}
    {below : List (OpenNode Constraint Strategy)} (hs : InOrder before sols [] s)
    (hnone : s.root = none) (hstack : s.stack = top :: below)
    (hlt : top.next < top.choice.alternatives) :
    InOrder before sols [top.node.store.box ∩ granted top.node top.choice top.next]
      { s with stack := remainder top below } where
  regions := by
    have hregions := hs.regions
    unfold Search.regions at hregions ⊢
    rw [hnone, hstack] at hregions
    dsimp only
    rw [hnone]
    have hnext := region_next top hlt
    have hascends := hs.ascends top (hstack ▸ List.mem_cons_self)
    unfold remainder
    have hfirst : top.node.store.box ∩ granted top.node top.choice top.next ⊆ region top := by
      rw [hnext]
      exact Set.subset_union_left
    have hrest : region { top with next := top.next + 1 } ⊆ region top := by
      rw [hnext]
      exact Set.subset_union_right
    split
    · have hpieces : [top.node.store.box ∩ granted top.node top.choice top.next,
          region { top with next := top.next + 1 }].Pairwise (Precedes before) := by
        rw [List.pairwise_pair]
        rintro value hvalue other ⟨hother, alternative, hless, hbound, hgranted⟩
        exact hascends top.next alternative hless hbound value hvalue other ⟨hother, hgranted⟩
      apply pairwise_replace Precedes.mono hregions hpieces
      intro piece hpiece
      rcases List.mem_pair.mp hpiece with rfl | rfl
      · exact hfirst
      · exact hrest
    · apply pairwise_replace Precedes.mono hregions (List.pairwise_singleton _ _)
      intro piece hpiece
      rw [List.mem_singleton.mp hpiece]
      exact hfirst
  ascends := by
    intro other hother
    rcases mem_remainder hother with ⟨hnode, hchoice⟩ | hbelow
    · rw [hnode, hchoice]
      exact hs.ascends top (hstack ▸ List.mem_cons_self)
    · exact hs.ascends other (hstack ▸ List.mem_cons_of_mem _ hbelow)

theorem InOrder.afterVisit (hdirects : Directs before root ps) (hn : root.Descends ps n)
    (hnone : s.root = none) (hs : InOrder before sols [n.store.box] s) (h : Visit s n t sol) :
    InOrder before (sols ++ sol.toList) [] t := by
  cases h with
  | unimproved =>
      rw [Option.toList_none, List.append_nil]
      exact hs.drop.congr rfl rfl
  | failed =>
      rw [Option.toList_none, List.append_nil]
      exact hs.drop.congr rfl rfl
  | @split n₁ n₂ n₃ events c counters hconstrain hpropagate hchoose =>
      obtain ⟨-, hstore, hsub₂, hsub₁, -⟩ := box_of_visit hn hconstrain hpropagate hchoose
      obtain ⟨hn₁, r, hreaches, hfine, rfl⟩ :=
        propagate_of_constrain (fun _ => hn) hconstrain hpropagate
      have hregion : region ⟨n₃, c, 0⟩ ⊆ n.store.box := by
        rintro value ⟨hvalue, -⟩
        rw [hstore] at hvalue
        exact hsub₁ (hsub₂ hvalue)
      have hregions := (hs.shrink hregion).regions
      unfold Search.regions at hregions
      rw [hnone] at hregions
      rw [Option.toList_none, List.append_nil]
      constructor
      · unfold Search.regions
        dsimp only
        rw [hnone]
        exact hregions
      · intro top htop
        rcases List.mem_cons.mp htop with rfl | htop
        · exact hdirects _ _ _ (hn₁.afterPropagate hreaches hfine) hchoose
        · exact hs.ascends top htop
  | @solved n₁ n₂ n₃ events best counters hconstrain hpropagate hchoose hbest =>
      obtain ⟨-, hstore, hsub₂, hsub₁, -⟩ := box_of_visit hn hconstrain hpropagate hchoose
      rw [← hstore] at hsub₂
      have hregions := (hs.shrink (hsub₂.trans hsub₁)).regions
      have hsame : boxes (sols ++ (some (⟨n₃.store⟩ : Solution)).toList) ++
          ([] ++ Search.regions { s with best := best, counters := counters }) =
            boxes sols ++ ([n₃.store.box] ++ Search.regions s) := by
        simp only [boxes, Option.toList_some, List.map_append, List.map_cons, List.map_nil,
          List.append_assoc, List.nil_append]
        rfl
      refine ⟨?_, hs.ascends⟩
      rw [hsame]
      exact hregions

/-- A node is about to be visited. -/
structure Awaits (before : (Var → Int) → (Var → Int) → Prop) (root : Model) (ps : List Posting)
    (sols : List Solution) (s : Search Constraint Strategy) (n : Model) : Prop where
  running : s.progress = .running
  taken : s.root = none
  descends : root.Descends ps n
  covers : Covers root ps sols [n.store.box] s
  inOrder : InOrder before sols [n.store.box] s

/-- A step finds nothing, or it visits a node. -/
theorem InOrder.awaits_of_step (hroot : root.Sound ps) (hcovers : Covers root ps sols [] s)
    (hs : InOrder before sols [] s) (h : Step s t sol) :
    (sol = none ∧ t.objective = s.objective ∧ t.best = s.best ∧ InOrder before sols [] t) ∨
      ∃ u n, u.objective = s.objective ∧ u.best = s.best ∧ Awaits before root ps sols u n ∧
        Visit u n t sol := by
  cases h with
  | finished => exact Or.inl ⟨rfl, rfl, rfl, hs⟩
  | interrupted => exact Or.inl ⟨rfl, rfl, rfl, hs.congr rfl rfl⟩
  | exhausted => exact Or.inl ⟨rfl, rfl, rfl, hs.congr rfl rfl⟩
  | @root n t sol hprogress hsome hvisit =>
      have hn : root.Descends ps n := by
        rw [hcovers.explores.untouched n hsome]
        exact hroot.descends
      exact Or.inr ⟨{ s with root := none }, n, rfl, rfl, ⟨hprogress, rfl, hn,
        hcovers.takeRoot hprogress hsome, hs.takeRoot hsome⟩, hvisit⟩
  | @dropped top below w n counters hprogress hnone hstack hcommit =>
      have htaken := hs.takeNext hnone hstack (Model.commit_eq_ok hcommit).1
      exact Or.inl ⟨rfl, rfl, rfl, htaken.drop.congr rfl rfl⟩
  | @child top below n t sol hprogress hnone hstack hcommit hvisit =>
      have htop := hcovers.explores.descends top (hstack ▸ List.mem_cons_self)
      have hfine := htop.sound.consistent.failure
      have hlt := (Model.commit_eq_ok hcommit).1
      obtain ⟨hchild, hsub⟩ := (box_of_commit hcommit hfine).2 rfl
      exact Or.inr ⟨{ s with stack := remainder top below }, n, rfl, rfl, ⟨hprogress, hnone,
        htop.afterCommit hcommit hchild,
        (hcovers.takeNext hprogress hnone hstack hlt).afterCommit hfine hcommit,
        (hs.takeNext hnone hstack hlt).shrink hsub⟩, hvisit⟩

theorem InOrder.afterStep (hroot : root.Sound ps) (hdirects : Directs before root ps)
    (hcovers : Covers root ps sols [] s) (hs : InOrder before sols [] s) (h : Step s t sol) :
    InOrder before (sols ++ sol.toList) [] t := by
  rcases hs.awaits_of_step hroot hcovers h with ⟨rfl, -, -, ht⟩ | ⟨u, n, -, -, hu, hvisit⟩
  · rw [Option.toList_none, List.append_nil]
    exact ht
  · exact hu.inOrder.afterVisit hdirects hu.descends hu.taken hvisit

theorem InOrder.afterSteps (hroot : root.Sound ps) (hsplitting : Splitting root)
    (hdirects : Directs before root ps) (hcovers : Covers root ps [] [] s)
    (hs : InOrder before [] [] s) (h : s.Steps sols t) : InOrder before sols [] t := by
  induction h with
  | refl => exact hs
  | step hsteps hstep ih =>
      exact ih.afterStep hroot hdirects (hcovers.afterSteps hroot hsplitting hsteps) hstep

theorem inOrder_start (hsome : s.root = some root) (hstack : s.stack = []) :
    InOrder before [] [] s where
  regions := by
    unfold Search.regions
    rw [hsome, hstack]
    exact List.pairwise_singleton _ _
  ascends := by
    rw [hstack]
    intro top htop
    contradiction

theorem InOrder.pairwise_boxes (hs : InOrder before sols [] s) :
    sols.Pairwise fun a b => Precedes before a.store.box b.store.box := by
  have hboxes := (List.pairwise_append.mp hs.regions).1
  exact List.pairwise_map.mp hboxes

end Search

end FiniteDomain
