import FiniteDomain.Proofs.Shrinking

/-!
# Alternatives

What becomes of a store when the alternatives of a choice are committed, each in a store of its own.
All of them can be committed, and only the domain of the chosen variable becomes another one.  The
domains that it gets are parts of the one it had: none is empty, no two of them have a value in common,
each value is in one of them, and none is the whole.  The parts that a slicing makes follow one another
from the least value up, and none of them has to be cut again.

That each value lies in the range of exactly one alternative is known from splitting.  What is new is
that no range misses the domain.
-/

namespace FiniteDomain

namespace Interval

/-- The first `n` parts divide an interval: each is a smaller interval with a value, and together they
have each value of the interval once. -/
structure Division (d : Interval) (n : Nat) (part : Nat → Interval) : Prop where
  nonempty : ∀ k < n, (part k).lb ≤ (part k).ub
  disjoint : ∀ j < n, ∀ k < n, j ≠ k → ∀ v ∈ part j, v ∉ part k
  union : ∀ v, v ∈ d ↔ ∃ k < n, v ∈ part k
  smaller : ∀ k < n, part k < d

variable {d : Interval} {n : Nat} {range : Nat → Interval}

/-- Ranges that split an interval divide it, when each of them has a value of it but not all. -/
theorem division_of_ranges (hsplit : ∀ v ∈ d, ∃! k, k < n ∧ v ∈ range k)
    (hmeets : ∀ k < n, ∃ v ∈ d, v ∈ range k) (hcuts : ∀ k < n, ¬ d ≤ range k) :
    d.Division n fun k => d.inter (range k) where
  nonempty k hk := by
    obtain ⟨v, hv, hvk⟩ := hmeets k hk
    have hmem : v ∈ d.inter (range k) := mem_inter.mpr ⟨hv, hvk⟩
    exact hmem.1.trans hmem.2
  disjoint j hj k hk hne v hvj hvk := by
    obtain ⟨hv, hj'⟩ := mem_inter.mp hvj
    have hk' := (mem_inter.mp hvk).2
    exact hne ((hsplit v hv).unique ⟨hj, hj'⟩ ⟨hk, hk'⟩)
  union v := by
    constructor
    · intro hv
      obtain ⟨k, ⟨hk, hvk⟩, -⟩ := hsplit v hv
      exact ⟨k, hk, mem_inter.mpr ⟨hv, hvk⟩⟩
    · rintro ⟨k, -, hvk⟩
      exact (mem_inter.mp hvk).1
  smaller k hk := by
    refine lt_of_le_of_ne (inter_le_left _ _) ?_
    rw [ne_eq, inter_eq_left_iff]
    exact hcuts k hk

end Interval

/-! ## No range misses the domain -/

section Cells

variable {d : Interval}

theorem Labelling.exists_mem_cell (b : Labelling) (hd : d.lb < d.ub)
    (hbounds : Word.minValue ≤ d.lb ∧ d.ub ≤ Word.maxValue) (k : Nat) :
    ∃ v ∈ d, v ∈ b.cell d k := by
  simp only [Word.minValue, Word.maxValue] at hbounds
  -- the range of the preferred bound has that bound, and the other range has the other bound
  unfold cell
  cases k with
  | zero =>
      cases b.preference with
      | least => exact ⟨d.lb, ⟨le_rfl, hd.le⟩, le_rfl, le_rfl⟩
      | greatest => exact ⟨d.ub, ⟨hd.le, le_rfl⟩, le_rfl, le_rfl⟩
  | succ k =>
      cases b.preference with
      | least =>
          refine ⟨d.ub, ⟨hd.le, le_rfl⟩, ?_⟩
          simp only [Interval.mem_iff, Word.greatest]
          omega
      | greatest =>
          refine ⟨d.lb, ⟨le_rfl, hd.le⟩, ?_⟩
          simp only [Interval.mem_iff, Word.least]
          omega

theorem Bisection.exists_mem_cell (hd : d.lb < d.ub)
    (hbounds : Word.minValue ≤ d.lb ∧ d.ub ≤ Word.maxValue) (k : Nat) :
    ∃ v ∈ d, v ∈ cell d k := by
  have hmiddle := middle_bounds hd
  simp only [Word.minValue, Word.maxValue] at hbounds
  unfold cell
  cases k with
  | zero =>
      refine ⟨d.lb, ⟨le_rfl, hd.le⟩, ?_⟩
      simp only [Interval.mem_iff, Word.least]
      omega
  | succ k =>
      refine ⟨d.ub, ⟨hd.le, le_rfl⟩, ?_⟩
      simp only [Interval.mem_iff, Word.greatest]
      omega

end Cells

namespace Slicing

variable {item : SlicedItem} {c : Choice} {step k : Nat}

/-- A slice starts after as many values as the slices before it have, and ends with the domain at the
latest. -/
theorem inter_slice (hstep : item.width.length = step) (hle : c.min ≤ c.max)
    (hmax : c.max ≤ Word.maxValue) (hk : k < (c.max - c.min).toNat / (step + 1) + 1) :
    c.min + (k * (step + 1) : Nat) ≤ c.max ∧
      (⟨c.min, c.max⟩ : Interval).inter (slice item c k) =
        ⟨c.min + (k * (step + 1) : Nat), min (c.min + (k * (step + 1) : Nat) + step) c.max⟩ := by
  have hstart : k * (step + 1) ≤ (c.max - c.min).toNat :=
    (Nat.le_div_iff_mul_le (by omega)).mp (Nat.lt_succ_iff.mp hk)
  have hcast : (k : Int) * ((step : Int) + 1) = ((k * (step + 1) : Nat) : Int) := by
    push_cast
    ring
  refine ⟨by omega, ?_⟩
  unfold slice Interval.inter
  simp only [hstep, hcast, Interval.mk.injEq]
  omega

end Slicing

namespace Strategy

variable {b b' : Strategy} {s : Store} {id : BrancherId} {c : Choice} {pos k : Nat} {x : Var}

/-- Each alternative leaves its variable a value. -/
def Meets (b : Strategy) (c : Choice) (s : Store) : Prop :=
  ∀ k < c.alternatives, ∃ x d, b.range c k = .ok (x, d) ∧ ∃ v ∈ s.view x, v ∈ d

theorem meets_of_choose (hs : s.Consistent) (hsplitting : b.IsSplitting) (hfits : b.Addressable)
    (h : Brancher.choose b id s = .ok (c, b')) : b.Meets c s := by
  obtain ⟨pos, hundecided, hchoice⟩ := undecided_of_choose hs hsplitting h
  cases b with
  | labelling b =>
      obtain ⟨-, x, -, -, hlt, hrange⟩ := ranges_labelling hs hfits hundecided hchoice
      intro k _
      exact ⟨x, _, hrange k, b.exists_mem_cell hlt ⟨hs.least x, hs.greatest x⟩ k⟩
  | bisection b =>
      obtain ⟨-, x, -, -, hlt, hrange⟩ := ranges_bisection hs hfits hundecided hchoice
      intro k _
      exact ⟨x, _, hrange k, Bisection.exists_mem_cell hlt ⟨hs.least x, hs.greatest x⟩ k⟩
  | slicing b =>
      obtain ⟨item, step, -, -, hview, hstep, hwide, hnumber, hrange⟩ :=
        ranges_slicing hs hfits hundecided hchoice
      intro k hk
      refine ⟨item.position, _, hrange k hk, ?_⟩
      have hmax := hs.greatest item.position
      rw [hview] at hmax
      rw [hnumber] at hk
      obtain ⟨hstart, hslice⟩ := Slicing.inter_slice hstep (by omega) hmax hk
      have hmem : c.min + (k * (step + 1) : Nat) ∈
          (⟨c.min, c.max⟩ : Interval).inter (Slicing.slice item c k) := by
        rw [hslice, Interval.mem_iff]
        dsimp only
        omega
      rw [Interval.mem_inter, ← hview] at hmem
      exact ⟨_, hmem⟩
  | caseSplit b => contradiction

/-- To commit an alternative that leaves its variable a value is to cut its domain. -/
theorem commit_of_range {d : Interval} {v : Int} (hs : s.failure = none) (hx : s.Has x)
    (hrange : b.range c k = .ok (x, d)) (hv : v ∈ s.view x) (hd : v ∈ d) :
    (Brancher.commit b c k).apply s = .ok (.ok (), s.cut x d) := by
  have hmem : v ∈ (s.view x).inter d := Interval.mem_inter.mpr ⟨hv, hd⟩
  have hleft : ((s.view x).inter d).isEmpty = false :=
    Interval.isEmpty_eq_false_iff.mpr (hmem.1.trans hmem.2)
  have hnarrow := Store.narrow_of_has hs hx d.lb d.ub
  dsimp only at hnarrow
  rw [if_neg (by rw [hleft]; exact Bool.false_ne_true)] at hnarrow
  rw [commit_eq, Update.apply_bind, Update.apply_read, hrange]
  simp only [Except.map, Update.apply_discard, Update.narrow, Update.apply_ofFunction, hnarrow]

/-- The alternatives of a choice divide the domain of a variable among stores that differ from the
given one in nothing else. -/
structure Divides (b : Strategy) (c : Choice) (s : Store) (x : Var) (part : Nat → Store) : Prop where
  position : b.vars[c.pos]? = some x
  has : s.Has x
  commit : ∀ k < c.alternatives, (Brancher.commit b c k).apply s = .ok (.ok (), part k)
  consistent : ∀ k < c.alternatives, (part k).Consistent
  frame : ∀ k < c.alternatives,
    (part k).domains.size = s.domains.size ∧ ∀ y, y ≠ x → (part k).view y = s.view y
  division : (s.view x).Division c.alternatives fun k => (part k).view x

/-- The parts go up from one alternative to the next, none is wider than a slice, and the slicing would
not cut them again. -/
structure Slices (b : Slicing) (c : Choice) (x : Var) (part : Nat → Store) : Prop where
  consecutive : ∀ k, k + 1 < c.alternatives →
    ((part (k + 1)).view x).lb = ((part k).view x).ub + 1
  width_le : ∃ item, b.items[c.pos]? = some item ∧ ∀ k < c.alternatives,
    ((part k).view x).ub - ((part k).view x).lb ≤ item.width.length
  decided : ∀ k < c.alternatives, b.undecided (part k) c.pos = .ok false

theorem divides_of_choose (hs : s.Consistent) (hsplitting : b.IsSplitting) (hfits : b.Addressable)
    (h : Brancher.choose b id s = .ok (c, b')) :
    ∃ x part, b.Divides c s x part := by
  obtain ⟨x, hcuts⟩ := cuts_of_choose hs hsplitting hfits h
  obtain ⟨rfl, -⟩ := choose_eq_ok h
  obtain ⟨x', range, hhas, hrange, hsplit⟩ := splits_of_choose hs hsplitting hfits h
  have hmeets := meets_of_choose hs hsplitting hfits h
  -- the three facts speak of the variable and the ranges of the same alternatives
  have hsame : x' = x := by
    obtain ⟨d, hd, -⟩ := hcuts.range 0 c.alternatives_pos
    rw [hrange 0 c.alternatives_pos] at hd
    exact (Prod.mk.inj (Except.ok.inj hd)).1
  rw [hsame] at hhas hrange hsplit
  have hvalue : ∀ k < c.alternatives, ∃ v ∈ s.view x, v ∈ range k := by
    intro k hk
    obtain ⟨y, d, hd, hv⟩ := hmeets k hk
    rw [hrange k hk] at hd
    obtain ⟨rfl, rfl⟩ := Prod.mk.inj (Except.ok.inj hd)
    exact hv
  have hproper : ∀ k < c.alternatives, ¬ s.view x ≤ range k := by
    intro k hk
    obtain ⟨d, hd, hle⟩ := hcuts.range k hk
    rw [hrange k hk] at hd
    obtain ⟨-, rfl⟩ := Prod.mk.inj (Except.ok.inj hd)
    exact hle
  have hcommit : ∀ k < c.alternatives,
      (Brancher.commit b' c k).apply s = .ok (.ok (), s.cut x (range k)) := by
    intro k hk
    obtain ⟨v, hv, hvk⟩ := hvalue k hk
    exact commit_of_range hs.failure hhas (hrange k hk) hv hvk
  have hview : ∀ k, (s.cut x (range k)).view x = (s.view x).inter (range k) := by
    intro k
    rw [Store.view_cut hhas, View.cut_self]
  refine ⟨x, fun k => s.cut x (range k), hcuts.position, hhas, hcommit, ?_, ?_, ?_⟩
  · intro k hk
    obtain ⟨x', d, changed, -, hnarrow, -⟩ := commit_eq_ok (hcommit k hk)
    exact (Store.Narrowing.refl.narrow hnarrow).consistent hs (Store.failure_cut.trans hs.failure)
  · intro k _
    refine ⟨Store.size_cut, ?_⟩
    intro y hy
    rw [Store.view_cut hhas, View.cut_of_ne _ hy]
  · simp only [hview]
    exact Interval.division_of_ranges hsplit hvalue hproper

/-- The domain that an alternative of a slicing leaves its variable. -/
theorem Divides.view_slice {b b' : Slicing} {part : Nat → Store} (hs : s.Consistent)
    (hfits : b.items.size ≤ Choice.positions)
    (h : Brancher.choose (slicing b) id s = .ok (c, slicing b'))
    (hdivides : (slicing b).Divides c s x part) :
    ∃ (item : SlicedItem) (step : Nat), b.items[c.pos]? = some item ∧ item.position = x ∧
      item.width.length = step ∧
      ∀ k < c.alternatives, c.min + (k * (step + 1) : Nat) ≤ c.max ∧
        (part k).view x =
          ⟨c.min + (k * (step + 1) : Nat), min (c.min + (k * (step + 1) : Nat) + step) c.max⟩ := by
  obtain ⟨pos, hundecided, hchoice⟩ := undecided_of_choose (b := slicing b) hs trivial h
  obtain ⟨item, step, hitem, hhas, hview, hstep, hwide, hnumber, hrange⟩ :=
    ranges_slicing hs hfits hundecided hchoice
  have hx : item.position = x := by
    have hposition := hdivides.position
    change (b.items.toList.map SlicedItem.position)[c.pos]? = some x at hposition
    rw [List.getElem?_map, Array.getElem?_toList, hitem] at hposition
    exact Option.some.inj hposition
  refine ⟨item, step, hitem, hx, hstep, ?_⟩
  intro k hk
  have hmeets := meets_of_choose (b := slicing b) hs trivial hfits h k hk
  rw [hrange k hk] at hmeets
  obtain ⟨y, d, hd, v, hv, hvd⟩ := hmeets
  obtain ⟨rfl, rfl⟩ := Prod.mk.inj (Except.ok.inj hd)
  have hcommit := commit_of_range hs.failure hhas (hrange k hk) hv hvd
  have hpart := (Except.ok.inj ((hdivides.commit k hk).symm.trans hcommit))
  have hmax := hs.greatest item.position
  rw [hview] at hmax
  rw [hnumber] at hk
  obtain ⟨hstart, hslice⟩ := Slicing.inter_slice hstep (by omega) hmax hk
  refine ⟨hstart, ?_⟩
  rw [(Prod.mk.inj hpart).2, ← hx, Store.view_cut hhas, View.cut_self, hview, hslice]

theorem slices_of_choose {b b' : Slicing} {part : Nat → Store} (hs : s.Consistent)
    (hfits : b.items.size ≤ Choice.positions)
    (h : Brancher.choose (slicing b) id s = .ok (c, slicing b'))
    (hdivides : (slicing b).Divides c s x part) : Slices b c x part := by
  obtain ⟨item, step, hitem, hx, hstep, hslice⟩ := hdivides.view_slice hs hfits h
  have hwidth : ∀ k < c.alternatives, ((part k).view x).ub - ((part k).view x).lb ≤ step := by
    intro k hk
    rw [(hslice k hk).2]
    dsimp only
    omega
  refine ⟨?_, ?_, ?_⟩
  · intro k hk
    -- the next slice starts within the domain, so this one is not cut short
    obtain ⟨hnext, hview⟩ := hslice (k + 1) hk
    rw [hview, (hslice k (by omega)).2]
    rw [Nat.succ_mul] at hnext ⊢
    dsimp only
    omega
  · refine ⟨item, hitem, ?_⟩
    rw [hstep]
    exact hwidth
  · intro k hk
    refine slicing_undecided_eq_ok_iff.mpr ⟨item, hitem, ?_⟩
    by_cases hsmall : item.extent.length < b.minExtent
    · exact Or.inl ⟨hsmall, rfl⟩
    · have hpart := hdivides.consistent k hk
      have hhas : (part k).Has item.position := by
        unfold Store.Has
        rw [(hdivides.frame k hk).1, hx]
        exact hdivides.has
      refine Or.inr ⟨not_lt.mp hsmall, hhas, _, hpart.width_eq_ok _, ?_⟩
      have hnarrow := hwidth k hk
      rw [hx, hstep]
      exact (decide_eq_false (not_lt.mpr hnarrow)).symm

/-- A strategy that has a decision left makes a choice.  Its alternatives divide the domain of the
variable at the position of the choice, and if it is a slicing, the parts are slices. -/
theorem choose_divides (hs : s.Consistent) (hsplitting : b.IsSplitting)
    (hvars : ∀ x ∈ b.vars, s.Has x) (hfits : b.Addressable)
    (hstatus : Brancher.status b s = .ok (true, b')) (id : BrancherId) :
    ∃ c b'' x part, Brancher.choose b' id s = .ok (c, b'') ∧ b''.Divides c s x part ∧
      ∀ slices, b'' = slicing slices → Slices slices c x part := by
  obtain ⟨left, resumed, hanswer, hchoice⟩ := exists_status id hsplitting hs hvars
  rw [hstatus] at hanswer
  obtain ⟨rfl, rfl⟩ := Prod.mk.inj (Except.ok.inj hanswer)
  obtain ⟨⟨c, b''⟩, hchoose⟩ := hchoice rfl
  obtain ⟨rfl, -⟩ := choose_eq_ok hchoose
  -- looking for the decision has moved the cursor only
  have hsame : b''.rewound = b.rewound := by
    rw [status_eq] at hstatus
    rcases Fault.bind_eq_ok_iff.mp hstatus with ⟨i, -, hmoved⟩
    rw [← (Prod.mk.inj (Except.ok.inj hmoved)).2]
    exact rewound_resumedAt b i
  have hsplitting' : b''.IsSplitting := by
    rw [← isSplitting_rewound, hsame, isSplitting_rewound]
    exact hsplitting
  have hfits' : b''.Addressable := by
    rw [← addressable_rewound, hsame, addressable_rewound]
    exact hfits
  obtain ⟨x, part, hdivides⟩ := divides_of_choose hs hsplitting' hfits' hchoose
  refine ⟨c, b'', x, part, hchoose, hdivides, ?_⟩
  rintro slices rfl
  exact slices_of_choose hs hfits' hchoose hdivides

/-- An item of extent 6, half of which has to be covered wherever it lies in a slice. -/
def halfCovered : Slicing :=
  ⟨#[⟨⟨0⟩, .clamp 6, .clamp 3⟩], 0.5, 1, 0⟩

/-- The eleven values from -3 to 7 are divided into two slices of four values and one of three. -/
theorem choose_divides_halfCovered :
    ∃ c part, Brancher.choose (slicing halfCovered) 0 ⟨#[⟨-3, 7⟩], #[], none⟩ =
        .ok (c, slicing halfCovered) ∧ c.alternatives = 3 ∧
      Divides (slicing halfCovered) c ⟨#[⟨-3, 7⟩], #[], none⟩ ⟨0⟩ part ∧
      Slices halfCovered c ⟨0⟩ part ∧ (part 2).view ⟨0⟩ = ⟨5, 7⟩ := by
  have hstatus : Brancher.status (slicing halfCovered) ⟨#[⟨-3, 7⟩], #[], none⟩ =
      .ok (true, slicing halfCovered) := rfl
  obtain ⟨c, b, x, part, hchoose, hdivides, hslices⟩ :=
    choose_divides (by decide) (by decide) (by decide) (by decide) hstatus 0
  obtain ⟨rfl, rfl⟩ := Prod.mk.inj (Except.ok.inj hchoose)
  obtain rfl := Option.some.inj hdivides.position
  have hlast := (Prod.mk.inj (Except.ok.inj (hdivides.commit 2 (by decide)))).2
  refine ⟨_, part, hchoose, rfl, hdivides, hslices _ rfl, ?_⟩
  rw [← hlast]
  rfl

end Strategy

end FiniteDomain
