import FiniteDomain.Proofs.Cursors

/-!
# Shrinking

A choice is made where a decision is needed: the domain of its variable has at least two values, and
more of them than fit one slice.  So the range of an alternative never covers that domain.  Whichever
alternative is committed, its variable loses a value, or the commit fails.  And there are never more
alternatives than values.
-/

namespace FiniteDomain

theorem Interval.size_le_of_le {d e : Interval} (h : d ≤ e) : d.size ≤ e.size := by
  rw [Interval.le_iff] at h
  unfold size
  omega

namespace Store

variable {s t : Store} {x : Var}

theorem weight_eq_sum (s : Store) : s.weight = (s.domains.toList.map Interval.size).sum := by
  rw [List.sum_eq_foldr, List.foldr_map]
  rfl

theorem view_eq_getElem {i : Nat} (hi : i < s.domains.size) : s.view ⟨i⟩ = s.domains[i] := by
  unfold view Table.view
  dsimp only
  rw [Array.getElem?_eq_getElem hi, Option.getD_some]

theorem size_le_weight (hx : s.Has x) : (s.view x).size ≤ s.weight := by
  have hmem : s.view x ∈ s.domains.toList := by
    change s.view ⟨x.index⟩ ∈ s.domains.toList
    rw [view_eq_getElem hx]
    exact Array.getElem_mem_toList hx
  rw [weight_eq_sum]
  exact List.le_sum_of_mem (List.mem_map_of_mem hmem)

theorem Below.weight_le (h : t.Below s) : t.weight ≤ s.weight := by
  rw [weight_eq_sum, weight_eq_sum]
  apply List.Forall₂.sum_le_sum
  rw [List.forall₂_map_left_iff, List.forall₂_map_right_iff, List.forall₂_iff_get]
  refine ⟨h.size, ?_⟩
  intro i ht hs
  have hle := h.view ⟨i⟩
  rw [view_eq_getElem ht, view_eq_getElem hs] at hle
  exact Interval.size_le_of_le hle

end Store

namespace Selection

variable {vars : Table Var} {s : Store} {undecided : Nat → Except Fault Bool} {start pos : Nat}

/-- Whatever the heuristic, a position that is picked is undecided. -/
theorem undecided_of_pick {selection : Selection}
    (h : selection.pick vars start s undecided = .ok (some pos)) : undecided pos = .ok true := by
  have hcompared : (do
      let found ← selection.candidates vars s undecided (vars.size - start) start
      return (cheapest found).map Prod.fst) = .ok (some pos) → undecided pos = .ok true := by
    intro hscan
    rcases Fault.bind_eq_ok_iff.mp hscan with ⟨found, hfound, hanswer⟩
    rcases Option.map_eq_some_iff.mp (Except.ok.inj hanswer) with ⟨best, hbest, hpos⟩
    have hmem := (mem_candidates_iff hfound best).mp (mem_of_cheapest hbest)
    rw [hpos] at hmem
    exact hmem.2.2.1
  cases selection with
  | first =>
      rcases Fault.bind_eq_ok_iff.mp h with ⟨i, hscan, hanswer⟩
      have hle := (Brancher.firstUndecided_le hscan).1
      split at hanswer
      · rename_i hlt
        have hsame := Option.some.inj (Except.ok.inj hanswer)
        rw [← hsame]
        exact Brancher.undecided_of_firstUndecided hscan (by omega)
      · have hnone := Except.ok.inj hanswer
        contradiction
  | smallestDomain => exact hcompared h
  | smallestMin => exact hcompared h
  | largestMax => exact hcompared h

end Selection

/-- The middle of a domain with two values at least leaves a value on either side. -/
theorem Bisection.middle_bounds {d : Interval} (hd : d.lb < d.ub) :
    d.lb ≤ Int.fdiv (d.lb + d.ub) 2 ∧ Int.fdiv (d.lb + d.ub) 2 < d.ub := by
  rw [Int.fdiv_eq_ediv_of_nonneg _ (by omega)]
  omega

namespace Strategy

variable {b b' : Strategy} {s : Store} {id : BrancherId} {c : Choice} {pos : Nat} {x : Var}

/-- A choice is made at a position that needs a decision, whatever the strategy remembers. -/
theorem undecided_of_choose (hs : s.Consistent) (hsplitting : b.IsSplitting)
    (h : Brancher.choose b id s = .ok (c, b')) :
    ∃ pos, b.Undecided s pos ∧ b.choiceAt id s pos = .ok c := by
  change b.choose id s = .ok (c, b') at h
  cases b with
  | labelling b =>
      obtain ⟨b'', hchoose, rfl⟩ := Fault.rebuild_eq_ok h
      obtain ⟨pos, hpick, hchoice⟩ := labelling_choiceAt_of_choose hchoose
      have hanswer := Selection.undecided_of_pick hpick
      have hpos : pos < (labelling b).positions := by
        obtain ⟨x, hx, -⟩ := labelling_undecided_eq_ok_iff.mp hanswer
        exact (Array.getElem?_eq_some_iff.mp hx).1
      exact ⟨pos, (isUndecided_eq_true_iff hs hpos).mp hanswer, hchoice⟩
  | bisection b =>
      obtain ⟨b'', hchoose, rfl⟩ := Fault.rebuild_eq_ok h
      obtain ⟨pos, hlt, hscan, hchoice⟩ := bisection_choiceAt_of_choose hchoose
      have hle := (Brancher.firstUndecided_le hscan).1
      have hanswer := Brancher.undecided_of_firstUndecided hscan (by omega)
      exact ⟨pos, (isUndecided_eq_true_iff hs hlt).mp hanswer, hchoice⟩
  | slicing b =>
      obtain ⟨b'', hchoose, rfl⟩ := Fault.rebuild_eq_ok h
      obtain ⟨pos, hlt, hscan, hchoice⟩ := slicing_choiceAt_of_choose hchoose
      have hle := (Brancher.firstUndecided_le hscan).1
      have hanswer := Brancher.undecided_of_firstUndecided hscan (by omega)
      exact ⟨pos, (isUndecided_eq_true_iff hs hlt).mp hanswer, hchoice⟩
  | caseSplit b => contradiction

section Choices

theorem labelling_choiceAt_eq {b : Labelling} (hx : b.vars[pos]? = some x) (hhas : s.Has x) :
    (labelling b).choiceAt id s pos = .ok (.binary id pos (s.view x).lb (s.view x).ub) := by
  dsimp only [choiceAt]
  rw [Table.fetch_eq_ok_iff.mpr hx]
  simp only [bind, Except.bind, Store.domain_of_has hhas]
  rfl

theorem bisection_choiceAt_eq {b : Bisection} {need : SplitSize}
    (hx : b.entries[pos]? = some (x, need)) (hhas : s.Has x) :
    (bisection b).choiceAt id s pos = .ok (.binary id pos (s.view x).lb (s.view x).ub) := by
  dsimp only [choiceAt]
  rw [Table.fetch_eq_ok_iff.mpr hx]
  simp only [bind, Except.bind, Store.domain_of_has hhas]
  rfl

/-- A slicing chooses among so many slices as it takes to cover the domain. -/
theorem slicing_of_choiceAt {b : Slicing} {item : SlicedItem} (hs : s.Consistent)
    (hitem : b.items[pos]? = some item) (hhas : s.Has item.position)
    (h : (slicing b).choiceAt id s pos = .ok c) :
    c.brancher = id ∧ c.pos = Choice.wrapPos pos ∧ c.min = (s.view item.position).lb ∧
      c.max = (s.view item.position).ub ∧
      Slicing.count (c.max - c.min) item.width.length = .ok c.alternatives := by
  dsimp only [choiceAt] at h
  rw [Table.fetch_eq_ok_iff.mpr hitem] at h
  simp only [bind, Except.bind, Store.domain_of_has hhas, hs.width_eq_ok] at h
  split at h
  · contradiction
  · rename_i n hcount
    unfold Choice.promised at h
    split at h
    · obtain rfl := Except.ok.inj h
      exact ⟨rfl, rfl, rfl, rfl, hcount⟩
    · contradiction

end Choices

/-! ## The ranges of a choice -/

/-- A labelling offers the preferred bound of a domain with two values at least, and the rest of it. -/
theorem ranges_labelling {b : Labelling} (hs : s.Consistent)
    (hfits : b.vars.size ≤ Choice.positions) (hundecided : (labelling b).Undecided s pos)
    (h : (labelling b).choiceAt id s pos = .ok c) :
    c.alternatives = 2 ∧ ∃ x, (labelling b).vars[c.pos]? = some x ∧ s.Has x ∧
      (s.view x).lb < (s.view x).ub ∧
      ∀ alternative, (labelling b).range c alternative = .ok (x, b.cell (s.view x) alternative) := by
  obtain ⟨x, hx, hhas, hne⟩ := hundecided
  rw [labelling_choiceAt_eq hx hhas] at h
  obtain rfl := Except.ok.inj h
  have hlt := (Array.getElem?_eq_some_iff.mp hx).1
  have hpos : Choice.wrapPos pos = pos := Choice.wrapPos_of_lt (hlt.trans_le hfits)
  have hle := hs.view x
  have hfetch : b.vars.fetch (Choice.wrapPos pos) = .ok x := by
    rw [hpos]
    exact Table.fetch_eq_ok_iff.mpr hx
  refine ⟨rfl, x, ?_, hhas, lt_of_le_of_ne hle hne, ?_⟩
  · change b.vars.toList[Choice.wrapPos pos]? = some x
    rw [hpos, Array.getElem?_toList]
    exact hx
  · exact Labelling.range_binary hfetch ⟨hs.least x, hle, hs.greatest x⟩

/-- A bisection offers the two halves of a domain with two values at least. -/
theorem ranges_bisection {b : Bisection} (hs : s.Consistent)
    (hfits : b.entries.size ≤ Choice.positions) (hundecided : (bisection b).Undecided s pos)
    (h : (bisection b).choiceAt id s pos = .ok c) :
    c.alternatives = 2 ∧ ∃ x, (bisection b).vars[c.pos]? = some x ∧ s.Has x ∧
      (s.view x).lb < (s.view x).ub ∧
      ∀ alternative,
        (bisection b).range c alternative = .ok (x, Bisection.cell (s.view x) alternative) := by
  obtain ⟨x, need, hx, hhas, hne, -⟩ := hundecided
  rw [bisection_choiceAt_eq hx hhas] at h
  obtain rfl := Except.ok.inj h
  have hlt := (Array.getElem?_eq_some_iff.mp hx).1
  have hpos : Choice.wrapPos pos = pos := Choice.wrapPos_of_lt (hlt.trans_le hfits)
  have hle := hs.view x
  have hfetch : b.entries.fetch (Choice.wrapPos pos) = .ok (x, need) := by
    rw [hpos]
    exact Table.fetch_eq_ok_iff.mpr hx
  refine ⟨rfl, x, ?_, hhas, lt_of_le_of_ne hle hne, ?_⟩
  · change (b.entries.toList.map Prod.fst)[Choice.wrapPos pos]? = some x
    rw [hpos, List.getElem?_map, Array.getElem?_toList, hx]
    rfl
  · exact Bisection.range_binary hfetch ⟨hs.least x, hle, hs.greatest x⟩

/-- A slicing offers the slices of a domain that is wider than one of them. -/
theorem ranges_slicing {b : Slicing} (hs : s.Consistent) (hfits : b.items.size ≤ Choice.positions)
    (hundecided : (slicing b).Undecided s pos) (h : (slicing b).choiceAt id s pos = .ok c) :
    ∃ (item : SlicedItem) (step : Nat), b.items[c.pos]? = some item ∧ s.Has item.position ∧
      s.view item.position = ⟨c.min, c.max⟩ ∧ item.width.length = step ∧ step < c.max - c.min ∧
      c.alternatives = (c.max - c.min).toNat / (step + 1) + 1 ∧
      ∀ alternative < c.alternatives,
        (slicing b).range c alternative = .ok (item.position, Slicing.slice item c alternative) := by
  obtain ⟨item, hitem, hhas, -, hwide⟩ := hundecided
  obtain ⟨-, hpos, hmin, hmax, hcount⟩ := slicing_of_choiceAt hs hitem hhas h
  have hlt := (Array.getElem?_eq_some_iff.mp hitem).1
  rw [Choice.wrapPos_of_lt (hlt.trans_le hfits)] at hpos
  have hle := hs.view item.position
  obtain ⟨step, hstep⟩ := Int.eq_ofNat_of_zero_le item.width.nonneg
  have hnumber : c.alternatives = (c.max - c.min).toNat / (step + 1) + 1 := by
    apply Slicing.count_eq_ok
    rw [← hstep, Int.toNat_of_nonneg (by omega)]
    exact hcount
  refine ⟨item, step, ?_, hhas, ?_, hstep, by omega, hnumber, ?_⟩
  · rw [hpos]
    exact hitem
  · rw [hmin, hmax]
  · intro alternative hless
    change b.range c alternative = _
    unfold Slicing.range
    rw [decide_eq_true hless, Fault.check_true, hpos, Table.fetch_eq_ok_iff.mpr hitem]
    rfl

/-- The alternatives of the choice narrow the variable at its position.  No range of them covers the
domain, and there are not more of them than values. -/
structure Cuts (b : Strategy) (c : Choice) (s : Store) (x : Var) : Prop where
  position : b.vars[c.pos]? = some x
  has : s.Has x
  alternatives_le : c.alternatives ≤ (s.view x).size
  range : ∀ alternative < c.alternatives,
    ∃ d, b.range c alternative = .ok (x, d) ∧ ¬ s.view x ≤ d

theorem two_le_size {d : Interval} (hd : d.lb < d.ub) : 2 ≤ d.size := by
  unfold Interval.size
  omega

theorem cuts_labelling {b : Labelling} (hs : s.Consistent)
    (hfits : b.vars.size ≤ Choice.positions) (hundecided : (labelling b).Undecided s pos)
    (h : (labelling b).choiceAt id s pos = .ok c) : ∃ x, (labelling b).Cuts c s x := by
  obtain ⟨htwo, x, hposition, hhas, hlt, hrange⟩ := ranges_labelling hs hfits hundecided h
  refine ⟨x, hposition, hhas, htwo ▸ two_le_size hlt, ?_⟩
  intro alternative _
  refine ⟨_, hrange alternative, ?_⟩
  rw [Interval.le_iff]
  unfold Labelling.cell
  cases alternative with
  | zero =>
      cases b.preference with
      | least =>
          simp only [Interval.singleton]
          omega
      | greatest =>
          simp only [Interval.singleton]
          omega
  | succ k =>
      cases b.preference with
      | least =>
          dsimp only
          omega
      | greatest =>
          dsimp only
          omega

theorem cuts_bisection {b : Bisection} (hs : s.Consistent)
    (hfits : b.entries.size ≤ Choice.positions) (hundecided : (bisection b).Undecided s pos)
    (h : (bisection b).choiceAt id s pos = .ok c) : ∃ x, (bisection b).Cuts c s x := by
  obtain ⟨htwo, x, hposition, hhas, hlt, hrange⟩ := ranges_bisection hs hfits hundecided h
  refine ⟨x, hposition, hhas, htwo ▸ two_le_size hlt, ?_⟩
  intro alternative _
  refine ⟨_, hrange alternative, ?_⟩
  -- the middle lies below the upper bound, also where it is negative
  have hmiddle := Bisection.middle_bounds hlt
  rw [Interval.le_iff]
  unfold Bisection.cell
  cases alternative with
  | zero =>
      dsimp only
      omega
  | succ k =>
      dsimp only
      omega

theorem cuts_slicing {b : Slicing} (hs : s.Consistent) (hfits : b.items.size ≤ Choice.positions)
    (hundecided : (slicing b).Undecided s pos) (h : (slicing b).choiceAt id s pos = .ok c) :
    ∃ x, (slicing b).Cuts c s x := by
  obtain ⟨item, step, hitem, hhas, hview, hstep, hwide, hnumber, hrange⟩ :=
    ranges_slicing hs hfits hundecided h
  refine ⟨item.position, ?_, hhas, ?_, ?_⟩
  · change (b.items.toList.map SlicedItem.position)[c.pos]? = some item.position
    rw [List.getElem?_map, Array.getElem?_toList, hitem]
    rfl
  · have hquotient : (c.max - c.min).toNat / (step + 1) ≤ (c.max - c.min).toNat :=
      Nat.div_le_self _ _
    rw [hnumber, hview]
    unfold Interval.size
    dsimp only
    omega
  · intro alternative hless
    refine ⟨_, hrange alternative hless, ?_⟩
    -- a slice that starts where the domain does ends before it
    intro hcovers
    have hgreatest := hs.greatest item.position
    rw [hview] at hgreatest hcovers
    rw [Interval.le_iff] at hcovers
    unfold Slicing.slice at hcovers
    rw [hstep] at hcovers
    have hstart : (0 : Int) ≤ alternative * (step + 1 : Int) := by positivity
    dsimp only at hcovers hgreatest
    omega

/-- Whichever alternative of a choice is committed, the domain of its variable does not stay. -/
theorem cuts_of_choose (hs : s.Consistent) (hsplitting : b.IsSplitting) (hfits : b.Addressable)
    (h : Brancher.choose b id s = .ok (c, b')) : ∃ x, b.Cuts c s x := by
  obtain ⟨pos, hundecided, hchoice⟩ := undecided_of_choose hs hsplitting h
  cases b with
  | labelling b => exact cuts_labelling hs hfits hundecided hchoice
  | bisection b => exact cuts_bisection hs hfits hundecided hchoice
  | slicing b => exact cuts_slicing hs hfits hundecided hchoice
  | caseSplit b => contradiction

end Strategy

end FiniteDomain
