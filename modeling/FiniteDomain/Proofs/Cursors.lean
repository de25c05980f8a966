import FiniteDomain.Proofs.Serving

/-!
# Cursors

A strategy keeps a cursor, so that it does not ask its first positions again and again.  Whether a
position is undecided depends on the domain of one variable, and a decided position stays decided
when domains shrink: a bound variable stays bound, a domain that is too small to be split does not
grow, and one that is narrow enough stays so.  As long as every position before the cursor is decided,
a scan from the cursor has the same outcome as a scan from the beginning.

All heuristics pick among all undecided positions: the first of those with the smallest domain, with
the smallest lower bound or with the greatest upper bound.  A strategy without a heuristic picks the
first one of all.
-/

namespace FiniteDomain

/-- Each domain of the second store is still there in the first one, maybe smaller, but not empty. -/
def Store.Refines (t s : Store) : Prop :=
  ∀ x, s.Has x → t.Has x ∧ t.view x ≤ s.view x ∧ (t.view x).lb ≤ (t.view x).ub

theorem Store.Below.refines {s t : Store} (h : t.Below s) (ht : t.view.Consistent) :
    t.Refines s := by
  intro x hx
  exact ⟨h.has_iff.mpr hx, h.view x, ht x⟩

namespace Brancher

variable {undecided : Nat → Except Fault Bool} {count start i : Nat}

/-- Decided positions at the beginning of a scan can be left out. -/
theorem firstUndecided_add {passed : Nat}
    (h : ∀ pos, start ≤ pos → pos < start + passed → undecided pos = .ok false) (count : Nat) :
    firstUndecided undecided (passed + count) start =
      firstUndecided undecided count (start + passed) := by
  induction passed generalizing start with
  | zero => rw [Nat.zero_add, Nat.add_zero]
  | succ passed ih =>
      have hrest := ih fun pos hstart hpos => h pos (Nat.le_of_succ_le hstart) (by omega)
      rw [Nat.add_right_comm, firstUndecided, h start le_rfl (by omega)]
      dsimp only
      rw [hrest, Nat.succ_add_eq_add_succ]

theorem undecided_of_firstUndecided (h : firstUndecided undecided count start = .ok i)
    (hi : i < start + count) : undecided i = .ok true := by
  induction count generalizing start with
  | zero =>
      rw [← Except.ok.inj h] at hi
      omega
  | succ count ih =>
      unfold firstUndecided at h
      split at h
      · contradiction
      · rename_i hstart
        rw [← Except.ok.inj h]
        exact hstart
      · exact ih h (by omega)

end Brancher

namespace Selection

/-- By what the heuristic looks at, the first domain is at least as good as the second one. -/
def Prefers : Selection → Interval → Interval → Prop
  | first, _, _ => True
  | smallestDomain, d, e => d.size ≤ e.size
  | smallestMin, d, e => d.lb ≤ e.lb
  | largestMax, d, e => e.ub ≤ d.ub

theorem cost_le_cost_iff {selection : Selection} {d e : Interval} :
    selection.cost d ≤ selection.cost e ↔ selection.Prefers d e := by
  cases selection with
  | first => simp [cost, Prefers]
  | smallestDomain => simp [cost, Prefers]
  | smallestMin => rfl
  | largestMax => exact neg_le_neg_iff

variable {vars : Table Var} {s : Store} {undecided : Nat → Except Fault Bool} {selection : Selection}
  {count start : Nat} {found : List (Nat × Int)} {best : Nat × Int}

/-- The candidates are the undecided positions. -/
theorem mem_candidates_iff (h : selection.candidates vars s undecided count start = .ok found)
    (candidate : Nat × Int) :
    candidate ∈ found ↔ start ≤ candidate.1 ∧ candidate.1 < start + count ∧
      undecided candidate.1 = .ok true ∧ ∃ x, vars[candidate.1]? = some x ∧ s.Has x ∧
        candidate.2 = selection.cost (s.view x) := by
  induction count generalizing start found with
  | zero =>
      rw [← Except.ok.inj h]
      constructor
      · intro hmem
        contradiction
      · intro hcandidate
        omega
  | succ count ih =>
      unfold candidates at h
      obtain ⟨left, hleft, hrest⟩ := Fault.bind_eq_ok_iff.mp h
      cases left with
      | true =>
          obtain ⟨x, hx, hread⟩ := Fault.bind_eq_ok_iff.mp hrest
          obtain ⟨d, hd, hlater⟩ := Fault.bind_eq_ok_iff.mp hread
          obtain ⟨later, hcandidates, hfound⟩ := Fault.bind_eq_ok_iff.mp hlater
          have hx' := Table.fetch_eq_ok_iff.mp hx
          have hdomain := Store.domain_eq_ok_iff.mp hd
          rw [← Except.ok.inj hfound, List.mem_cons, ih hcandidates]
          constructor
          · intro hmem
            rcases hmem with hhere | ⟨hstart, hlt, hundecided, hcost⟩
            · rw [hhere]
              refine ⟨le_rfl, by dsimp only; omega, hleft, x, hx', hdomain.1, ?_⟩
              rw [hdomain.2]
            · exact ⟨by omega, by omega, hundecided, hcost⟩
          · intro hcandidate
            obtain ⟨hstart, hlt, hundecided, y, hy, hhas, hcost⟩ := hcandidate
            by_cases hhere : candidate.1 = start
            · left
              rw [hhere, hx', Option.some.injEq] at hy
              rw [← hy, hdomain.2] at hcost
              exact Prod.ext hhere hcost
            · exact Or.inr ⟨by omega, by omega, hundecided, y, hy, hhas, hcost⟩
      | false =>
          have hlater := ih hrest
          rw [hlater]
          constructor
          · intro hcandidate
            exact ⟨by omega, by omega, hcandidate.2.2⟩
          · intro hcandidate
            have hne : candidate.1 ≠ start := by
              intro hhere
              rw [hhere, hleft] at hcandidate
              exact absurd hcandidate.2.2.1 (by simp)
            exact ⟨by omega, by omega, hcandidate.2.2⟩

/-- The candidates are in the order of their positions. -/
theorem candidates_pairwise (h : selection.candidates vars s undecided count start = .ok found) :
    found.Pairwise fun first second => first.1 < second.1 := by
  induction count generalizing start found with
  | zero =>
      rw [← Except.ok.inj h]
      exact .nil
  | succ count ih =>
      unfold candidates at h
      obtain ⟨left, hleft, hrest⟩ := Fault.bind_eq_ok_iff.mp h
      cases left with
      | true =>
          obtain ⟨x, -, hread⟩ := Fault.bind_eq_ok_iff.mp hrest
          obtain ⟨d, -, hlater⟩ := Fault.bind_eq_ok_iff.mp hread
          obtain ⟨later, hcandidates, hfound⟩ := Fault.bind_eq_ok_iff.mp hlater
          rw [← Except.ok.inj hfound, List.pairwise_cons]
          refine ⟨?_, ih hcandidates⟩
          intro candidate hmem
          exact ((mem_candidates_iff hcandidates candidate).mp hmem).1
      | false => exact ih hrest

/-- The cheapest candidate costs no more than any other, and less than those before it. -/
theorem cheapest_le (h : cheapest found = some best)
    (hsorted : found.Pairwise fun first second => first.1 < second.1) {other : Nat × Int}
    (hother : other ∈ found) : best.2 ≤ other.2 ∧ (other.2 = best.2 → best.1 ≤ other.1) := by
  induction found generalizing best other with
  | nil => contradiction
  | cons candidate rest ih =>
      rw [List.pairwise_cons] at hsorted
      obtain ⟨hfirst, hrest⟩ := hsorted
      unfold cheapest at h
      split at h
      · rename_i hnone
        obtain rfl := Option.some.inj h
        have hnil : rest = [] := by
          by_contra hne
          obtain ⟨later, hlater⟩ := exists_cheapest hne
          rw [hnone] at hlater
          contradiction
        rw [hnil, List.mem_singleton] at hother
        rw [hother]
        exact ⟨le_rfl, fun _ => le_rfl⟩
      · rename_i later hlater
        have hmem := mem_of_cheapest hlater
        rw [List.mem_cons] at hother
        split at h
        · rename_i hless
          obtain rfl := Option.some.inj h
          rcases hother with hother | hother
          · rw [hother]
            exact ⟨hless.le, fun heq => absurd hless (by omega)⟩
          · exact ih hlater hrest hother
        · rename_i hless
          obtain rfl := Option.some.inj h
          rcases hother with hother | hother
          · rw [hother]
            exact ⟨le_rfl, fun _ => le_rfl⟩
          · have hle := ih hlater hrest hother
            exact ⟨by omega, fun _ => (hfirst other hother).le⟩

end Selection

namespace Strategy

/-- The number of positions. -/
def positions : Strategy → Nat
  | labelling b => b.vars.size
  | bisection b => b.entries.size
  | slicing b => b.items.size
  | caseSplit _ => 1

/-- The position from which the strategy goes on. -/
def cursor : Strategy → Nat
  | labelling b => b.cursor
  | bisection b => b.cursor
  | slicing b => b.cursor
  | caseSplit _ => 0

/-- The strategy with its cursor at the given position. -/
def resumedAt (i : Nat) : Strategy → Strategy
  | labelling b => labelling { b with cursor := i }
  | bisection b => bisection { b with cursor := i }
  | slicing b => slicing { b with cursor := i }
  | caseSplit b => caseSplit b

/-- What the strategy answers when it is asked for a position. -/
def isUndecided (s : Store) : Strategy → Nat → Except Fault Bool
  | labelling b, pos => b.undecided s pos
  | bisection b, pos => b.undecided s pos
  | slicing b, pos => b.undecided s pos
  | caseSplit b, _ => do return !(← s.isBound b.var)

/-- The positions that need a decision: an unbound variable, which has to be large enough if there is
a filter; the position of an item that is large enough, in a domain wider than its slices. -/
def Undecided (s : Store) : Strategy → Nat → Prop
  | labelling b, pos => ∃ x, b.vars[pos]? = some x ∧ s.Has x ∧ (s.view x).lb ≠ (s.view x).ub
  | bisection b, pos => ∃ x need, b.entries[pos]? = some (x, need) ∧ s.Has x ∧
      (s.view x).lb ≠ (s.view x).ub ∧ need.isMet (s.view x).size = true
  | slicing b, pos => ∃ item, b.items[pos]? = some item ∧ s.Has item.position ∧
      b.minExtent ≤ item.extent.length ∧
      item.width.length < (s.view item.position).ub - (s.view item.position).lb
  | caseSplit b, pos => pos = 0 ∧ s.Has b.var ∧ (s.view b.var).lb ≠ (s.view b.var).ub

/-- By the heuristic, if the strategy has one, the first position is at least as good as the second
one. -/
def Prefers (s : Store) : Strategy → Nat → Nat → Prop
  | labelling b, pos, other => ∀ x y, b.vars[pos]? = some x → b.vars[other]? = some y →
      b.selection.Prefers (s.view x) (s.view y)
  | _, _, _ => True

/-- The choice that the strategy makes at a position. -/
def choiceAt (id : BrancherId) (s : Store) : Strategy → Nat → Except Fault Choice
  | labelling b, pos => do
    let d ← s.domain (← b.vars.fetch pos)
    return .binary id pos d.lb d.ub
  | bisection b, pos => do
    let (x, _) ← b.entries.fetch pos
    let d ← s.domain x
    return .binary id pos d.lb d.ub
  | slicing b, pos => do
    let item ← b.items.fetch pos
    let d ← s.domain item.position
    Choice.promised id pos d.lb d.ub (← Slicing.count (← d.width) item.width.length)
  | caseSplit b, pos => do
    let d ← s.domain b.var
    Choice.promised id pos d.lb d.ub b.cases.size

variable {b b' : Strategy} {s t : Store} {id : BrancherId} {c : Choice} {pos : Nat}

theorem Undecided.lt_positions (h : b.Undecided s pos) : pos < b.positions := by
  cases b with
  | labelling b =>
      obtain ⟨x, hx, -⟩ := h
      exact (Array.getElem?_eq_some_iff.mp hx).1
  | bisection b =>
      obtain ⟨x, need, hx, -⟩ := h
      exact (Array.getElem?_eq_some_iff.mp hx).1
  | slicing b =>
      obtain ⟨item, hitem, -⟩ := h
      exact (Array.getElem?_eq_some_iff.mp hitem).1
  | caseSplit b =>
      rw [h.1]
      exact Nat.one_pos

theorem isBound_eq_ok_iff {x : Var} {bound : Bool} :
    s.isBound x = .ok bound ↔ s.Has x ∧ bound = decide ((s.view x).lb = (s.view x).ub) := by
  unfold Store.isBound
  rw [Fault.bind_eq_ok_iff]
  constructor
  · rintro ⟨d, hd, hbound⟩
    obtain ⟨hx, hview⟩ := Store.domain_eq_ok_iff.mp hd
    rw [← hview] at hbound
    exact ⟨hx, (Except.ok.inj hbound).symm⟩
  · rintro ⟨hx, hbound⟩
    exact ⟨_, Store.domain_of_has hx, by rw [hbound]; rfl⟩

theorem labelling_undecided_eq_ok_iff {b : Labelling} {answer : Bool} :
    b.undecided s pos = .ok answer ↔ ∃ x, b.vars[pos]? = some x ∧ s.Has x ∧
      answer = decide ((s.view x).lb ≠ (s.view x).ub) := by
  unfold Labelling.undecided
  rw [Fault.bind_eq_ok_iff]
  constructor
  · rintro ⟨x, hx, h⟩
    obtain ⟨bound, hbound, hanswer⟩ := Fault.bind_eq_ok_iff.mp h
    obtain ⟨hhas, hvalue⟩ := isBound_eq_ok_iff.mp hbound
    refine ⟨x, Table.fetch_eq_ok_iff.mp hx, hhas, ?_⟩
    rw [← Except.ok.inj hanswer, hvalue, decide_not]
  · rintro ⟨x, hx, hhas, hanswer⟩
    refine ⟨x, Table.fetch_eq_ok_iff.mpr hx, ?_⟩
    rw [isBound_eq_ok_iff.mpr ⟨hhas, rfl⟩, hanswer, decide_not]
    rfl

theorem bisection_undecided_eq_ok_iff {b : Bisection} {answer : Bool} :
    b.undecided s pos = .ok answer ↔ ∃ x need, b.entries[pos]? = some (x, need) ∧ s.Has x ∧
      answer = (decide ((s.view x).lb ≠ (s.view x).ub) && need.isMet (s.view x).size) := by
  unfold Bisection.undecided
  rw [Fault.bind_eq_ok_iff]
  constructor
  · rintro ⟨⟨x, need⟩, hx, h⟩
    obtain ⟨d, hd, hanswer⟩ := Fault.bind_eq_ok_iff.mp h
    obtain ⟨hhas, hview⟩ := Store.domain_eq_ok_iff.mp hd
    refine ⟨x, need, Table.fetch_eq_ok_iff.mp hx, hhas, ?_⟩
    rw [← Except.ok.inj hanswer, hview, decide_not]
    rfl
  · rintro ⟨x, need, hx, hhas, hanswer⟩
    refine ⟨(x, need), Table.fetch_eq_ok_iff.mpr hx, ?_⟩
    dsimp only
    rw [Store.domain_of_has hhas, hanswer, decide_not]
    rfl

theorem slicing_undecided_eq_ok_iff {b : Slicing} {answer : Bool} :
    b.undecided s pos = .ok answer ↔ ∃ item, b.items[pos]? = some item ∧
      ((item.extent.length < b.minExtent ∧ answer = false) ∨
        (b.minExtent ≤ item.extent.length ∧ s.Has item.position ∧
          ∃ width, (s.view item.position).width = .ok width ∧
            answer = decide (item.width.length < width))) := by
  unfold Slicing.undecided
  rw [Fault.bind_eq_ok_iff]
  constructor
  · rintro ⟨item, hitem, h⟩
    refine ⟨item, Table.fetch_eq_ok_iff.mp hitem, ?_⟩
    split at h
    · rename_i hsmall
      exact Or.inl ⟨hsmall, (Except.ok.inj h).symm⟩
    · rename_i hlarge
      obtain ⟨d, hd, hwidth⟩ := Fault.bind_eq_ok_iff.mp h
      obtain ⟨width, hw, hanswer⟩ := Fault.bind_eq_ok_iff.mp hwidth
      obtain ⟨hhas, hview⟩ := Store.domain_eq_ok_iff.mp hd
      rw [← hview] at hw
      exact Or.inr ⟨not_lt.mp hlarge, hhas, width, hw, (Except.ok.inj hanswer).symm⟩
  · rintro ⟨item, hitem, h⟩
    refine ⟨item, Table.fetch_eq_ok_iff.mpr hitem, ?_⟩
    rcases h with ⟨hsmall, hanswer⟩ | ⟨hlarge, hhas, width, hw, hanswer⟩
    · rw [if_pos hsmall, hanswer]
      rfl
    · rw [if_neg (not_lt.mpr hlarge), Store.domain_of_has hhas, hanswer]
      simp only [bind, Except.bind, hw]
      rfl

theorem caseSplit_isUndecided_eq_ok_iff {b : CaseSplit} {answer : Bool} :
    (caseSplit b).isUndecided s pos = .ok answer ↔
      s.Has b.var ∧ answer = decide ((s.view b.var).lb ≠ (s.view b.var).ub) := by
  refine Fault.bind_eq_ok_iff.trans ?_
  constructor
  · rintro ⟨bound, hbound, hanswer⟩
    obtain ⟨hhas, hvalue⟩ := isBound_eq_ok_iff.mp hbound
    rw [← Except.ok.inj hanswer, hvalue, decide_not]
    exact ⟨hhas, rfl⟩
  · rintro ⟨hhas, hanswer⟩
    refine ⟨_, isBound_eq_ok_iff.mpr ⟨hhas, rfl⟩, ?_⟩
    rw [hanswer, decide_not]
    rfl

/-- On consistent domains a position is undecided when the strategy says so. -/
theorem isUndecided_eq_true_iff (hs : s.Consistent) (hpos : pos < b.positions) :
    b.isUndecided s pos = .ok true ↔ b.Undecided s pos := by
  cases b with
  | labelling b =>
      refine labelling_undecided_eq_ok_iff.trans ?_
      simp only [Undecided, eq_comm (a := true), decide_eq_true_eq]
  | bisection b =>
      refine bisection_undecided_eq_ok_iff.trans ?_
      simp only [Undecided, eq_comm (a := true), Bool.and_eq_true, decide_eq_true_eq]
  | slicing b =>
      refine slicing_undecided_eq_ok_iff.trans ?_
      simp only [Undecided, hs.width_eq_ok]
      constructor
      · rintro ⟨item, hitem, ⟨-, hfalse⟩ | ⟨hlarge, hhas, width, hwidth, hanswer⟩⟩
        · contradiction
        · obtain rfl := Except.ok.inj hwidth
          exact ⟨item, hitem, hhas, hlarge, of_decide_eq_true hanswer.symm⟩
      · rintro ⟨item, hitem, hhas, hlarge, hless⟩
        exact ⟨item, hitem, Or.inr ⟨hlarge, hhas, _, rfl, (decide_eq_true hless).symm⟩⟩
  | caseSplit b =>
      refine caseSplit_isUndecided_eq_ok_iff.trans ?_
      have hzero : pos = 0 := Nat.lt_one_iff.mp hpos
      simp only [Undecided, eq_comm (a := true), decide_eq_true_eq, hzero, true_and]

/-- A decided position stays decided when domains shrink. -/
theorem isUndecided_refines (h : b.isUndecided s pos = .ok false) (hts : t.Refines s) :
    b.isUndecided t pos = .ok false := by
  cases b with
  | labelling b =>
      obtain ⟨x, hx, hhas, hbound⟩ := labelling_undecided_eq_ok_iff.mp h
      obtain ⟨hhas', hle, hne⟩ := hts x hhas
      rw [Interval.le_iff] at hle
      refine labelling_undecided_eq_ok_iff.mpr ⟨x, hx, hhas', ?_⟩
      have heq := of_decide_eq_false hbound.symm
      exact (decide_eq_false (by omega)).symm
  | bisection b =>
      obtain ⟨x, need, hx, hhas, hanswer⟩ := bisection_undecided_eq_ok_iff.mp h
      obtain ⟨hhas', hle, hne⟩ := hts x hhas
      rw [Interval.le_iff] at hle
      refine bisection_undecided_eq_ok_iff.mpr ⟨x, need, hx, hhas', ?_⟩
      rcases (Bool.and_eq_false_iff.mp hanswer.symm) with hbound | hsmall
      · have heq := of_decide_eq_false hbound
        rw [decide_eq_false (by omega), Bool.false_and]
      · have hsize : (t.view x).size ≤ (s.view x).size := by
          unfold Interval.size
          omega
        have hsmall' : need.isMet (t.view x).size = false := by
          by_contra hmet
          rw [Bool.not_eq_false] at hmet
          rw [SplitSize.isMet_mono hsize hmet] at hsmall
          contradiction
        rw [hsmall', Bool.and_false]
  | slicing b =>
      obtain ⟨item, hitem, hanswer⟩ := slicing_undecided_eq_ok_iff.mp h
      refine slicing_undecided_eq_ok_iff.mpr ⟨item, hitem, ?_⟩
      rcases hanswer with hsmall | ⟨hlarge, hhas, width, hwidth, hnarrow⟩
      · exact Or.inl hsmall
      · right
        obtain ⟨hhas', hle, hne⟩ := hts _ hhas
        rw [Interval.le_iff] at hle
        obtain ⟨hvalue, hleast, hgreatest⟩ := Word.fit_eq_ok_iff.mp hwidth
        have hle' := of_decide_eq_false hnarrow.symm
        refine ⟨hlarge, hhas', _, Word.fit_of_mem ?_ ?_, ?_⟩
        · simp only [Word.least] at *
          omega
        · omega
        · exact (decide_eq_false (by omega)).symm
  | caseSplit b =>
      obtain ⟨hhas, hbound⟩ := caseSplit_isUndecided_eq_ok_iff.mp h
      obtain ⟨hhas', hle, hne⟩ := hts _ hhas
      rw [Interval.le_iff] at hle
      refine caseSplit_isUndecided_eq_ok_iff.mpr ⟨hhas', ?_⟩
      have heq := of_decide_eq_false hbound.symm
      exact (decide_eq_false (by omega)).symm

/-! ## Scans from the cursor -/

/-- Every position before the cursor is decided. -/
structure Recalls (s : Store) (b : Strategy) : Prop where
  cursor_le : b.cursor ≤ b.positions
  decided : ∀ pos < b.cursor, b.isUndecided s pos = .ok false

/-- Every position is decided. -/
def IsDone (s : Store) (b : Strategy) : Prop :=
  ∀ pos < b.positions, b.isUndecided s pos = .ok false

theorem Recalls.refines (h : b.Recalls s) (hts : t.Refines s) : b.Recalls t where
  cursor_le := h.cursor_le
  decided pos hpos := isUndecided_refines (h.decided pos hpos) hts

theorem IsDone.refines (h : b.IsDone s) (hts : t.Refines s) : b.IsDone t := by
  intro pos hpos
  exact isUndecided_refines (h pos hpos) hts

theorem recalls_of_isFresh (h : b.rewound = b) : b.Recalls s := by
  have hcursor : b.cursor = 0 := by
    rw [← h]
    cases b <;> rfl
  constructor
  · rw [hcursor]
    exact Nat.zero_le _
  · intro pos hpos
    rw [hcursor] at hpos
    contradiction

section Resumed

variable (b : Strategy) (i : Nat)

@[simp]
theorem rewound_resumedAt : (b.resumedAt i).rewound = b.rewound := by
  cases b <;> rfl

@[simp]
theorem positions_resumedAt : (b.resumedAt i).positions = b.positions := by
  cases b <;> rfl

@[simp]
theorem isUndecided_resumedAt : (b.resumedAt i).isUndecided s = b.isUndecided s := by
  cases b <;> rfl

theorem rewound_eq_resumedAt : b.rewound = b.resumedAt 0 := by
  cases b <;> rfl

theorem cursor_resumedAt_le : (b.resumedAt i).cursor ≤ i := by
  cases b with
  | labelling b => exact le_rfl
  | bisection b => exact le_rfl
  | slicing b => exact le_rfl
  | caseSplit b => exact Nat.zero_le i

variable {i}

theorem cursor_resumedAt (hi : i < b.positions) : (b.resumedAt i).cursor = i := by
  cases b with
  | labelling b => rfl
  | bisection b => rfl
  | slicing b => rfl
  | caseSplit b => exact (Nat.lt_one_iff.mp hi).symm

end Resumed

/-- A strategy answers what its scan from the cursor says, and moves the cursor there. -/
theorem status_eq (b : Strategy) (s : Store) :
    Brancher.status b s = (do
      let i ← Brancher.firstUndecided (b.isUndecided s) (b.positions - b.cursor) b.cursor
      return (decide (i < b.positions), b.resumedAt i)) := by
  cases b with
  | labelling b =>
      change b.status s >>= _ = _
      unfold Labelling.status
      rw [bind_assoc]
      rfl
  | bisection b =>
      change b.status s >>= _ = _
      unfold Bisection.status
      rw [bind_assoc]
      rfl
  | slicing b =>
      change b.status s >>= _ = _
      unfold Slicing.status
      rw [bind_assoc]
      rfl
  | caseSplit b =>
      change ((s.isBound b.var >>= fun bound => pure (!bound, b)) >>= fun r =>
          pure (r.1, caseSplit r.2)) =
        Brancher.firstUndecided (fun _ => s.isBound b.var >>= fun bound => pure (!bound)) 1 0 >>= _
      unfold Brancher.firstUndecided
      cases s.isBound b.var with
      | error f => rfl
      | ok bound =>
          cases bound with
          | true => rfl
          | false => rfl

/-- It does not matter whether the cursor has moved. -/
theorem status_rewound (h : b.Recalls s) : Brancher.status b.rewound s = Brancher.status b s := by
  have hdecided : ∀ pos, 0 ≤ pos → pos < 0 + b.cursor → b.isUndecided s pos = .ok false := by
    intro pos _ hpos
    rw [Nat.zero_add] at hpos
    exact h.decided pos hpos
  have hscan := Brancher.firstUndecided_add hdecided (b.positions - b.cursor)
  rw [Nat.add_sub_cancel' h.cursor_le, Nat.zero_add] at hscan
  have hcursor := Nat.le_zero.mp (b.cursor_resumedAt_le 0)
  have hresumed : ∀ i, (b.resumedAt 0).resumedAt i = b.resumedAt i := by
    intro i
    cases b <;> rfl
  rw [rewound_eq_resumedAt, status_eq, status_eq b, isUndecided_resumedAt, positions_resumedAt,
    hcursor, Nat.sub_zero, hscan]
  simp only [hresumed]

/-- What the answer of a strategy says, and what the strategy remembers of it. -/
theorem Recalls.afterStatus {left : Bool} (h : b.Recalls s)
    (hstatus : Brancher.status b s = .ok (left, b')) :
    b'.Recalls s ∧ b'.rewound = b.rewound ∧ (left = false → b'.IsDone s) ∧
      (left = true → b'.isUndecided s b'.cursor = .ok true) := by
  rw [status_eq] at hstatus
  rcases Fault.bind_eq_ok_iff.mp hstatus with ⟨i, hscan, hanswer⟩
  rcases Prod.mk.inj (Except.ok.inj hanswer) with ⟨rfl, rfl⟩
  have hcursor := h.cursor_le
  have hrange := Brancher.firstUndecided_le hscan
  have hpassed : ∀ pos < i, b.isUndecided s pos = .ok false := by
    intro pos hpos
    by_cases hold : pos < b.cursor
    · exact h.decided pos hold
    · exact Brancher.firstUndecided_passed hscan (not_lt.mp hold) hpos
  have hmoved := b.cursor_resumedAt_le i
  refine ⟨⟨?_, ?_⟩, b.rewound_resumedAt i, ?_, ?_⟩
  · rw [positions_resumedAt]
    omega
  · intro pos hpos
    rw [isUndecided_resumedAt]
    exact hpassed pos (hpos.trans_le hmoved)
  · intro hdone pos hpos
    rw [positions_resumedAt] at hpos
    rw [isUndecided_resumedAt]
    have hnot := of_decide_eq_false hdone
    exact hpassed pos (by omega)
  · intro hleft
    have hlt := of_decide_eq_true hleft
    rw [isUndecided_resumedAt, cursor_resumedAt b hlt]
    exact Brancher.undecided_of_firstUndecided hscan (by omega)

/-! ## The position that is picked -/

/-- No undecided position is better, and none before it is as good. -/
structure IsBest (s : Store) (b : Strategy) (pos : Nat) : Prop where
  undecided : b.Undecided s pos
  prefers : ∀ other, b.Undecided s other → b.Prefers s pos other
  le : ∀ other, b.Undecided s other → b.Prefers s other pos → pos ≤ other

theorem not_undecided (hs : s.Consistent) (h : b.isUndecided s pos = .ok false) :
    ¬ b.Undecided s pos := by
  intro hundecided
  have htrue := (isUndecided_eq_true_iff hs hundecided.lt_positions).mpr hundecided
  rw [h] at htrue
  contradiction

theorem Recalls.cursor_le_of_undecided (h : b.Recalls s) (hs : s.Consistent)
    (hundecided : b.Undecided s pos) : b.cursor ≤ pos := by
  by_contra hlt
  exact not_undecided hs (h.decided pos (not_le.mp hlt)) hundecided

/-- Where no position is better than another, the first undecided one is the best. -/
theorem Recalls.isBest_of_scan (h : b.Recalls s) (hs : s.Consistent)
    (hscan : Brancher.firstUndecided (b.isUndecided s) (b.positions - b.cursor) b.cursor = .ok pos)
    (hpos : pos < b.positions) (hprefers : ∀ other, b.Prefers s pos other) : b.IsBest s pos where
  undecided := by
    have hcursor := h.cursor_le
    apply (isUndecided_eq_true_iff hs hpos).mp
    exact Brancher.undecided_of_firstUndecided hscan (by omega)
  prefers other _ := hprefers other
  le other hother _ := by
    by_contra hlt
    have hcursor := h.cursor_le_of_undecided hs hother
    exact not_undecided hs (Brancher.firstUndecided_passed hscan hcursor (not_le.mp hlt)) hother

theorem Recalls.mem_candidates_iff {b : Labelling} (h : (labelling b).Recalls s)
    (hs : s.Consistent) {found : List (Nat × Int)}
    (hfound : b.selection.candidates b.vars s (b.undecided s) (b.vars.size - b.cursor) b.cursor =
      .ok found) (candidate : Nat × Int) :
    candidate ∈ found ↔ (labelling b).Undecided s candidate.1 ∧
      ∃ x, b.vars[candidate.1]? = some x ∧ candidate.2 = b.selection.cost (s.view x) := by
  rw [Selection.mem_candidates_iff hfound]
  constructor
  · intro hmem
    obtain ⟨-, hlt, hundecided, x, hx, -, hvalue⟩ := hmem
    have hpos : candidate.1 < (labelling b).positions := (Array.getElem?_eq_some_iff.mp hx).1
    exact ⟨(isUndecided_eq_true_iff hs hpos).mp hundecided, x, hx, hvalue⟩
  · intro hmem
    obtain ⟨hundecided, x, hx, hvalue⟩ := hmem
    have hcursor := h.cursor_le_of_undecided hs hundecided
    have hlt : candidate.1 < b.vars.size := hundecided.lt_positions
    have hanswer := (isUndecided_eq_true_iff hs hundecided.lt_positions).mpr hundecided
    obtain ⟨y, hy, hhas, -⟩ := hundecided
    obtain rfl : y = x := Option.some.inj (hy.symm.trans hx)
    change b.cursor ≤ candidate.1 at hcursor
    exact ⟨hcursor, by omega, hanswer, y, hx, hhas, hvalue⟩

/-- The first of the candidates that cost least is the best position. -/
theorem Recalls.isBest_of_cheapest {b : Labelling} (h : (labelling b).Recalls s)
    (hs : s.Consistent) {found : List (Nat × Int)} {best : Nat × Int}
    (hfound : b.selection.candidates b.vars s (b.undecided s) (b.vars.size - b.cursor) b.cursor =
      .ok found) (hbest : Selection.cheapest found = some best) :
    (labelling b).IsBest s best.1 := by
  have hcandidate := h.mem_candidates_iff hs hfound
  obtain ⟨hundecided, x, hx, hvalue⟩ := (hcandidate best).mp (Selection.mem_of_cheapest hbest)
  have hleast : ∀ other y, (labelling b).Undecided s other → b.vars[other]? = some y →
      best.2 ≤ b.selection.cost (s.view y) ∧
        (b.selection.cost (s.view y) = best.2 → best.1 ≤ other) := by
    intro other y hother hy
    have hmem := (hcandidate (other, b.selection.cost (s.view y))).mpr ⟨hother, y, hy, rfl⟩
    exact Selection.cheapest_le hbest (Selection.candidates_pairwise hfound) hmem
  rw [hvalue] at hleast
  constructor
  · exact hundecided
  · intro other hother x' y hx' hy
    obtain rfl : x = x' := Option.some.inj (hx.symm.trans hx')
    exact Selection.cost_le_cost_iff.mp (hleast other y hother hy).1
  · intro other hother hprefers
    obtain ⟨y, hy, hopen⟩ := hother
    have hle := Selection.cost_le_cost_iff.mpr (hprefers y x hy hx)
    obtain ⟨hge, hties⟩ := hleast other y ⟨y, hy, hopen⟩ hy
    exact hties (le_antisymm hle hge)

theorem Recalls.isBest_of_pick {b : Labelling} (h : (labelling b).Recalls s) (hs : s.Consistent)
    (hpick : b.selection.pick b.vars b.cursor s (b.undecided s) = .ok (some pos)) :
    (labelling b).IsBest s pos := by
  by_cases hfirst : b.selection = .first
  · rw [hfirst] at hpick
    rcases Fault.bind_eq_ok_iff.mp hpick with ⟨i, hscan, hanswer⟩
    split at hanswer
    · rename_i hlt
      obtain rfl := Option.some.inj (Except.ok.inj hanswer)
      apply h.isBest_of_scan hs hscan hlt
      intro other x y _ _
      rw [hfirst]
      trivial
    · have hnone := Except.ok.inj hanswer
      contradiction
  · have hscan : (do
        let found ← b.selection.candidates b.vars s (b.undecided s) (b.vars.size - b.cursor) b.cursor
        return (Selection.cheapest found).map Prod.fst) = .ok (some pos) := by
      rw [← hpick]
      unfold Selection.pick
      split
      · contradiction
      · rfl
    rcases Fault.bind_eq_ok_iff.mp hscan with ⟨found, hfound, hanswer⟩
    rcases Option.map_eq_some_iff.mp (Except.ok.inj hanswer) with ⟨best, hbest, rfl⟩
    exact h.isBest_of_cheapest hs hfound hbest

/-- A labelling chooses at the position that its heuristic picks. -/
theorem labelling_choiceAt_of_choose {b b' : Labelling} (h : b.choose id s = .ok (c, b')) :
    ∃ pos, b.selection.pick b.vars b.cursor s (b.undecided s) = .ok (some pos) ∧
      (labelling b).choiceAt id s pos = .ok c := by
  rcases Fault.bind_eq_ok_iff.mp h with ⟨picked, hpick, hanswer⟩
  split at hanswer
  · contradiction
  · rename_i pos
    refine ⟨pos, hpick, ?_⟩
    rcases Fault.bind_eq_ok_iff.mp hanswer with ⟨x, hx, hread⟩
    rcases Fault.bind_eq_ok_iff.mp hread with ⟨d, hd, hresult⟩
    rw [← (Prod.mk.inj (Except.ok.inj hresult)).1]
    exact Fault.bind_eq_ok_iff.mpr ⟨x, hx, Fault.bind_eq_ok_iff.mpr ⟨d, hd, rfl⟩⟩

/-- A bisection chooses at the position where its scan ends. -/
theorem bisection_choiceAt_of_choose {b b' : Bisection} (h : b.choose id s = .ok (c, b')) :
    ∃ pos < b.entries.size,
      Brancher.firstUndecided (b.undecided s) (b.entries.size - b.cursor) b.cursor = .ok pos ∧
      (bisection b).choiceAt id s pos = .ok c := by
  rcases Fault.bind_eq_ok_iff.mp h with ⟨pos, hscan, hanswer⟩
  split at hanswer
  · rename_i hlt
    refine ⟨pos, hlt, hscan, ?_⟩
    rcases Fault.bind_eq_ok_iff.mp hanswer with ⟨entry, hentry, hread⟩
    rcases Fault.bind_eq_ok_iff.mp hread with ⟨d, hd, hresult⟩
    rw [← (Prod.mk.inj (Except.ok.inj hresult)).1]
    exact Fault.bind_eq_ok_iff.mpr ⟨entry, hentry, Fault.bind_eq_ok_iff.mpr ⟨d, hd, rfl⟩⟩
  · contradiction

/-- A slicing chooses at the position where its scan ends. -/
theorem slicing_choiceAt_of_choose {b b' : Slicing} (h : b.choose id s = .ok (c, b')) :
    ∃ pos < b.items.size,
      Brancher.firstUndecided (b.undecided s) (b.items.size - b.cursor) b.cursor = .ok pos ∧
      (slicing b).choiceAt id s pos = .ok c := by
  rcases Fault.bind_eq_ok_iff.mp h with ⟨pos, hscan, hanswer⟩
  split at hanswer
  · rename_i hlt
    refine ⟨pos, hlt, hscan, ?_⟩
    change (do
      let item ← b.items.fetch pos
      let d ← s.domain item.position
      let width ← d.width
      let n ← Slicing.count width item.width.length
      Choice.promised id pos d.lb d.ub n) = _
    rcases Fault.bind_eq_ok_iff.mp hanswer with ⟨item, hitem, hread⟩
    rcases Fault.bind_eq_ok_iff.mp hread with ⟨d, hd, hwidth⟩
    rcases Fault.bind_eq_ok_iff.mp hwidth with ⟨width, hw, hcount⟩
    rcases Fault.bind_eq_ok_iff.mp hcount with ⟨n, hn, hpromised⟩
    rcases Fault.bind_eq_ok_iff.mp hpromised with ⟨c', hc', hresult⟩
    rw [← (Prod.mk.inj (Except.ok.inj hresult)).1, hitem, ← hc']
    simp only [bind, Except.bind, hd, hw, hn]
  · contradiction

/-- A strategy that has a decision left chooses at the best position. -/
theorem Recalls.isBest_of_choose (h : b.Recalls s) (hs : s.Consistent)
    (hleft : b.isUndecided s b.cursor = .ok true) (hchoose : Brancher.choose b id s = .ok (c, b')) :
    ∃ pos, b.IsBest s pos ∧ b.choiceAt id s pos = .ok c := by
  change b.choose id s = .ok (c, b') at hchoose
  cases b with
  | labelling b =>
      obtain ⟨b'', hstrategy, rfl⟩ := Fault.rebuild_eq_ok hchoose
      obtain ⟨pos, hpick, hchoice⟩ := labelling_choiceAt_of_choose hstrategy
      exact ⟨pos, h.isBest_of_pick hs hpick, hchoice⟩
  | bisection b =>
      obtain ⟨b'', hstrategy, rfl⟩ := Fault.rebuild_eq_ok hchoose
      obtain ⟨pos, hlt, hscan, hchoice⟩ := bisection_choiceAt_of_choose hstrategy
      exact ⟨pos, h.isBest_of_scan hs hscan hlt fun _ => trivial, hchoice⟩
  | slicing b =>
      obtain ⟨b'', hstrategy, rfl⟩ := Fault.rebuild_eq_ok hchoose
      obtain ⟨pos, hlt, hscan, hchoice⟩ := slicing_choiceAt_of_choose hstrategy
      exact ⟨pos, h.isBest_of_scan hs hscan hlt fun _ => trivial, hchoice⟩
  | caseSplit b =>
      obtain ⟨b'', hstrategy, rfl⟩ := Fault.rebuild_eq_ok hchoose
      have hundecided := (isUndecided_eq_true_iff hs Nat.one_pos).mp hleft
      refine ⟨0, ⟨hundecided, fun _ _ => trivial, fun _ _ _ => Nat.zero_le _⟩, ?_⟩
      rcases Fault.bind_eq_ok_iff.mp hstrategy with ⟨d, hd, hread⟩
      rcases Fault.bind_eq_ok_iff.mp hread with ⟨c', hc', hresult⟩
      rw [← (Prod.mk.inj (Except.ok.inj hresult)).1]
      exact Fault.bind_eq_ok_iff.mpr ⟨d, hd, hc'⟩

end Strategy

end FiniteDomain
