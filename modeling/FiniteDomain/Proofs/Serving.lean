import FiniteDomain.Proofs.Deciding

/-!
# Serving

What a search asks of a brancher is answered without a fault.  As long as the variables of a brancher
exist and their domains have values, it can say whether a decision is left.  If one is, it makes a
choice, and the choice can be described and committed, alternative by alternative.  This holds even
where the position in a choice has been wrapped, since a wrapped position is still one of the
positions of the brancher.
-/

namespace FiniteDomain

theorem Store.Consistent.width_eq_ok {s : Store} (hs : s.Consistent) (x : Var) :
    (s.view x).width = .ok ((s.view x).ub - (s.view x).lb) := by
  have hle := hs.view x
  have hleast := hs.least x
  have hgreatest := hs.greatest x
  simp only [Word.minValue, Word.maxValue] at hleast hgreatest
  apply Word.fit_of_mem <;> simp only [Word.least, Word.greatest] <;> omega

/-- A failed store can be narrowed at any variable, any other store at the variables it has. -/
theorem Store.exists_narrow {s : Store} {x : Var} (hx : s.failure = none → s.Has x) (lb ub : Int) :
    ∃ r, s.narrow x lb ub = .ok r := by
  cases hs : s.failure with
  | some w => exact ⟨_, Store.narrow_of_failed hs x lb ub⟩
  | none =>
      rw [Store.narrow_of_has hs (hx hs)]
      dsimp only
      split
      · exact ⟨_, rfl⟩
      · exact ⟨_, rfl⟩

theorem Choice.wrapPos_le (pos : Nat) : wrapPos pos ≤ pos :=
  Nat.mod_le pos _

namespace Brancher

variable {undecided : Nat → Except Fault Bool}

/-- If every position has an answer, the search for an undecided one has, too. -/
theorem firstUndecided_eq_ok (count start : Nat)
    (h : ∀ pos, start ≤ pos → pos < start + count → ∃ answer, undecided pos = .ok answer) :
    ∃ i, firstUndecided undecided count start = .ok i ∧
      (i < start + count → undecided i = .ok true) := by
  induction count generalizing start with
  | zero => exact ⟨start, rfl, fun hlt => absurd hlt (by omega)⟩
  | succ count ih =>
      obtain ⟨answer, hanswer⟩ := h start le_rfl (by omega)
      unfold firstUndecided
      rw [hanswer]
      cases answer with
      | true => exact ⟨start, rfl, fun _ => hanswer⟩
      | false =>
          obtain ⟨i, hi, hfound⟩ := ih (start + 1)
            fun pos hstart hpos => h pos (by omega) (by omega)
          exact ⟨i, hi, fun hlt => hfound (by omega)⟩

/-- An undecided position is found at once. -/
theorem firstUndecided_of_undecided {count start : Nat} (h : undecided start = .ok true)
    (hcount : 0 < count) :
    firstUndecided undecided count start = .ok start := by
  obtain ⟨count, rfl⟩ := Nat.exists_eq_add_one.mpr hcount
  unfold firstUndecided
  rw [h]

end Brancher

namespace Selection

variable {undecided : Nat → Except Fault Bool} {vars : Table Var} {s : Store} {start : Nat}

theorem mem_of_cheapest {candidates : List (Nat × Int)} {best : Nat × Int}
    (h : cheapest candidates = some best) : best ∈ candidates := by
  induction candidates generalizing best with
  | nil => contradiction
  | cons candidate rest ih =>
      unfold cheapest at h
      split at h
      · rw [Option.some.injEq] at h
        subst h
        exact List.mem_cons_self
      · rename_i other hother
        split at h
        · rw [Option.some.injEq] at h
          subst h
          exact List.mem_cons_of_mem _ (ih hother)
        · rw [Option.some.injEq] at h
          subst h
          exact List.mem_cons_self

theorem exists_cheapest {candidates : List (Nat × Int)} (h : candidates ≠ []) :
    ∃ best, cheapest candidates = some best := by
  cases candidates with
  | nil => contradiction
  | cons candidate rest =>
      unfold cheapest
      split
      · exact ⟨_, rfl⟩
      · split <;> exact ⟨_, rfl⟩

theorem candidates_eq_ok (selection : Selection) (count start : Nat)
    (hask : ∀ pos, start ≤ pos → pos < start + count → ∃ answer, undecided pos = .ok answer)
    (hbound : start + count ≤ vars.size) (hvars : ∀ x ∈ vars, s.Has x) :
    ∃ found, selection.candidates vars s undecided count start = .ok found ∧
      ∀ candidate ∈ found, candidate.1 < vars.size := by
  induction count generalizing start with
  | zero => exact ⟨[], rfl, by simp⟩
  | succ count ih =>
      obtain ⟨answer, hanswer⟩ := hask start le_rfl (by omega)
      obtain ⟨later, hlater, hsmall⟩ := ih (start + 1)
        (fun pos hstart hpos => hask pos (by omega) (by omega)) (by omega)
      have hlt : start < vars.size := by omega
      have hdomain := Store.domain_of_has (hvars _ (Array.getElem_mem hlt))
      unfold candidates
      rw [hanswer, hlater, Table.fetch_of_lt hlt]
      cases answer with
      | true =>
          refine ⟨(start, selection.cost (s.view vars[start])) :: later, ?_, ?_⟩
          · simp [bind, Except.bind, pure, Except.pure, hdomain]
          · intro candidate hcandidate
            rcases List.mem_cons.mp hcandidate with rfl | hmem
            · exact hlt
            · exact hsmall candidate hmem
      | false => exact ⟨later, rfl, hsmall⟩

theorem candidates_ne_nil {selection : Selection} {count : Nat} {found : List (Nat × Int)}
    (hcount : 0 < count) (hstart : undecided start = .ok true)
    (h : selection.candidates vars s undecided count start = .ok found) : found ≠ [] := by
  obtain ⟨count, rfl⟩ := Nat.exists_eq_add_one.mpr hcount
  unfold candidates at h
  obtain ⟨left, hleft, h⟩ := Fault.bind_eq_ok_iff.mp h
  obtain rfl := Except.ok.inj (hleft.symm.trans hstart)
  rw [if_pos rfl] at h
  obtain ⟨x, -, h⟩ := Fault.bind_eq_ok_iff.mp h
  obtain ⟨d, -, h⟩ := Fault.bind_eq_ok_iff.mp h
  obtain ⟨later, -, h⟩ := Fault.bind_eq_ok_iff.mp h
  rw [← Except.ok.inj h]
  simp

/-- When the first position is undecided, one is picked, whatever the heuristic. -/
theorem pick_eq_ok (selection : Selection)
    (hask : ∀ pos, start ≤ pos → pos < vars.size → ∃ answer, undecided pos = .ok answer)
    (hlt : start < vars.size) (hstart : undecided start = .ok true)
    (hvars : ∀ x ∈ vars, s.Has x) :
    ∃ pos < vars.size, selection.pick vars start s undecided = .ok (some pos) := by
  have hcount : 0 < vars.size - start := by omega
  have hfirst := Brancher.firstUndecided_of_undecided hstart hcount
  obtain ⟨found, hfound, hsmall⟩ := selection.candidates_eq_ok (vars.size - start) start
    (fun pos hle hpos => hask pos hle (by omega)) (by omega) hvars
  obtain ⟨best, hbest⟩ := exists_cheapest (candidates_ne_nil hcount hstart hfound)
  have hpicked : (do
      let found ← selection.candidates vars s undecided (vars.size - start) start
      return (cheapest found).map Prod.fst) = (.ok (some best.1) : Except Fault (Option Nat)) := by
    rw [hfound]
    simp [bind, Except.bind, pure, Except.pure, hbest]
  have hsize := hsmall best (mem_of_cheapest hbest)
  unfold pick
  cases selection with
  | first =>
      refine ⟨start, hlt, ?_⟩
      simp [hfirst, bind, Except.bind, pure, Except.pure, hlt]
  | smallestDomain => exact ⟨best.1, hsize, hpicked⟩
  | smallestMin => exact ⟨best.1, hsize, hpicked⟩
  | largestMax => exact ⟨best.1, hsize, hpicked⟩

end Selection

section Asking

variable {s : Store} {pos : Nat}

theorem Labelling.undecided_eq_ok {b : Labelling} (hvars : ∀ x ∈ b.vars, s.Has x)
    (hpos : pos < b.vars.size) : ∃ answer, b.undecided s pos = .ok answer := by
  unfold undecided Store.isBound
  rw [Table.fetch_of_lt hpos]
  simp only [bind, Except.bind]
  rw [Store.domain_of_has (hvars _ (Array.getElem_mem hpos))]
  exact ⟨_, rfl⟩

theorem Bisection.undecided_eq_ok {b : Bisection} (hvars : ∀ entry ∈ b.entries, s.Has entry.1)
    (hpos : pos < b.entries.size) : ∃ answer, b.undecided s pos = .ok answer := by
  unfold undecided
  rw [Table.fetch_of_lt hpos]
  simp only [bind, Except.bind]
  rw [Store.domain_of_has (hvars _ (Array.getElem_mem hpos))]
  exact ⟨_, rfl⟩

theorem Slicing.undecided_eq_ok {b : Slicing} (hs : s.Consistent)
    (hvars : ∀ item ∈ b.items, s.Has item.position) (hpos : pos < b.items.size) :
    ∃ answer, b.undecided s pos = .ok answer := by
  unfold undecided
  rw [Table.fetch_of_lt hpos]
  simp only [bind, Except.bind]
  split
  · exact ⟨_, rfl⟩
  · rw [Store.domain_of_has (hvars _ (Array.getElem_mem hpos))]
    simp only [hs.width_eq_ok]
    exact ⟨_, rfl⟩

/-- A number of slices is at least one. -/
theorem Slicing.exists_count {width slice : Int} (hwidth : 0 ≤ width) (hslice : 0 ≤ slice) :
    ∃ n, count width slice = .ok n ∧ 0 < n := by
  refine ⟨(width.toNat + slice.toNat + 1) / (slice.toNat + 1), ?_, ?_⟩
  · unfold count
    simp [hwidth, hslice, bind, Except.bind, pure, Except.pure]
  · exact Nat.div_pos (by omega) (by omega)

end Asking

namespace Strategy

variable {b b' : Strategy} {s : Store} {id : BrancherId} {c : Choice}

@[simp]
theorem vars_rewound (b : Strategy) : b.rewound.vars = b.vars := by
  cases b <;> rfl

/-- Each alternative of the choice can be described, and narrows a variable that exists. -/
def Serves (b : Strategy) (c : Choice) (s : Store) : Prop :=
  ∀ alternative < c.alternatives,
    (∃ x d, b.range c alternative = .ok (x, d) ∧ s.Has x) ∧
      ∃ text, Brancher.describe b c alternative = .ok text

theorem serving_labelling (id : BrancherId) {b : Labelling} (hvars : ∀ x ∈ b.vars, s.Has x) :
    ∃ left b', b.status s = .ok (left, b') ∧ (left = true → ∃ r, b'.choose id s = .ok r) := by
  have hask : ∀ pos < b.vars.size, ∃ answer, b.undecided s pos = .ok answer :=
    fun pos hpos => Labelling.undecided_eq_ok hvars hpos
  obtain ⟨i, hi, hfound⟩ := Brancher.firstUndecided_eq_ok (b.vars.size - b.cursor) b.cursor
    fun pos _ hpos => hask pos (by omega)
  obtain ⟨hstart, -⟩ := Brancher.firstUndecided_le hi
  refine ⟨i < b.vars.size, { b with cursor := i }, ?_, ?_⟩
  · unfold Labelling.status
    rw [hi]
    rfl
  · intro hleft
    have hlt : i < b.vars.size := of_decide_eq_true hleft
    obtain ⟨pos, hpos, hpick⟩ := b.selection.pick_eq_ok (fun pos _ hpos => hask pos hpos) hlt
      (hfound (by omega)) hvars
    have hdomain := Store.domain_of_has (hvars _ (Array.getElem_mem hpos))
    refine ⟨(.binary id pos (s.view b.vars[pos]).lb (s.view b.vars[pos]).ub,
      { b with cursor := i }), ?_⟩
    unfold Labelling.choose
    dsimp only
    change ({ b with cursor := i } : Labelling).selection.pick _ _ _ (b.undecided s) >>= _ = _
    rw [hpick]
    simp only [bind, Except.bind, Table.fetch_of_lt hpos, hdomain]
    rfl

theorem serving_bisection (id : BrancherId) {b : Bisection}
    (hvars : ∀ entry ∈ b.entries, s.Has entry.1) :
    ∃ left b', b.status s = .ok (left, b') ∧ (left = true → ∃ r, b'.choose id s = .ok r) := by
  have hask : ∀ pos < b.entries.size, ∃ answer, b.undecided s pos = .ok answer :=
    fun pos hpos => Bisection.undecided_eq_ok hvars hpos
  obtain ⟨i, hi, hfound⟩ := Brancher.firstUndecided_eq_ok (b.entries.size - b.cursor) b.cursor
    fun pos _ hpos => hask pos (by omega)
  obtain ⟨hstart, -⟩ := Brancher.firstUndecided_le hi
  refine ⟨i < b.entries.size, { b with cursor := i }, ?_, ?_⟩
  · unfold Bisection.status
    rw [hi]
    rfl
  · intro hleft
    have hlt : i < b.entries.size := of_decide_eq_true hleft
    have hcount : 0 < b.entries.size - i := by omega
    have hagain := Brancher.firstUndecided_of_undecided (hfound (by omega)) hcount
    have hdomain := Store.domain_of_has (hvars _ (Array.getElem_mem hlt))
    refine ⟨(.binary id i (s.view b.entries[i].1).lb (s.view b.entries[i].1).ub,
      { b with cursor := i }), ?_⟩
    unfold Bisection.choose
    dsimp only
    change Brancher.firstUndecided (b.undecided s) _ _ >>= _ = _
    rw [hagain]
    simp only [bind, Except.bind, if_pos hlt, Table.fetch_of_lt hlt, hdomain]
    rfl

theorem serving_slicing (id : BrancherId) {b : Slicing} (hs : s.Consistent)
    (hvars : ∀ item ∈ b.items, s.Has item.position) :
    ∃ left b', b.status s = .ok (left, b') ∧ (left = true → ∃ r, b'.choose id s = .ok r) := by
  have hask : ∀ pos < b.items.size, ∃ answer, b.undecided s pos = .ok answer :=
    fun pos hpos => Slicing.undecided_eq_ok hs hvars hpos
  obtain ⟨i, hi, hfound⟩ := Brancher.firstUndecided_eq_ok (b.items.size - b.cursor) b.cursor
    fun pos _ hpos => hask pos (by omega)
  obtain ⟨hstart, -⟩ := Brancher.firstUndecided_le hi
  refine ⟨i < b.items.size, { b with cursor := i }, ?_, ?_⟩
  · unfold Slicing.status
    rw [hi]
    rfl
  · intro hleft
    have hlt : i < b.items.size := of_decide_eq_true hleft
    have hcount : 0 < b.items.size - i := by omega
    have hagain := Brancher.firstUndecided_of_undecided (hfound (by omega)) hcount
    have hdomain := Store.domain_of_has (hvars _ (Array.getElem_mem hlt))
    have hwidth := hs.width_eq_ok b.items[i].position
    have hle := hs.view b.items[i].position
    obtain ⟨n, hn, hpositive⟩ := Slicing.exists_count (sub_nonneg.mpr hle) b.items[i].width.nonneg
    unfold Slicing.choose
    dsimp only
    change ∃ r, Brancher.firstUndecided (b.undecided s) _ _ >>= _ = _
    rw [hagain]
    simp only [bind, Except.bind, if_pos hlt, Table.fetch_of_lt hlt, hdomain, hwidth, hn,
      Choice.promised, dif_pos hpositive]
    exact ⟨_, rfl⟩

/-- What holds of a brancher holds of the strategy that is built on it. -/
theorem serving_of_built {β : Type} (build : β → Strategy)
    {status : Except Fault (Bool × β)} {choose : β → Except Fault (Choice × β)}
    (h : ∃ left b', status = .ok (left, b') ∧ (left = true → ∃ r, choose b' = .ok r))
    (hchoose : ∀ b', Brancher.choose (build b') id s = do
      let (c, b) ← choose b'
      return (c, build b)) :
    ∃ left b', (do
        let (left, b) ← status
        return (left, build b)) = (.ok (left, b') : Except Fault (Bool × Strategy)) ∧
      (left = true → ∃ r, Brancher.choose b' id s = .ok r) := by
  obtain ⟨left, b', rfl, hmade⟩ := h
  refine ⟨left, build b', rfl, ?_⟩
  intro hleft
  obtain ⟨⟨c, b''⟩, hr⟩ := hmade hleft
  rw [hchoose, hr]
  exact ⟨(c, build b''), rfl⟩

/-- A strategy of the library says whether a decision is left, and if so it makes a choice. -/
theorem exists_status (id : BrancherId) (hsplitting : b.IsSplitting) (hs : s.Consistent)
    (hvars : ∀ x ∈ b.vars, s.Has x) :
    ∃ left b', Brancher.status b s = .ok (left, b') ∧
      (left = true → ∃ r, Brancher.choose b' id s = .ok r) := by
  cases b with
  | labelling b =>
      have hserving := serving_labelling id fun x hx => hvars x (Array.mem_toList_iff.mpr hx)
      exact serving_of_built labelling hserving fun _ => rfl
  | bisection b =>
      have hserving := serving_bisection id fun entry hentry =>
        hvars entry.1 (List.mem_map_of_mem (Array.mem_toList_iff.mpr hentry))
      exact serving_of_built bisection hserving fun _ => rfl
  | slicing b =>
      have hserving := serving_slicing id hs fun item hitem =>
        hvars item.position (List.mem_map_of_mem (Array.mem_toList_iff.mpr hitem))
      exact serving_of_built slicing hserving fun _ => rfl
  | caseSplit b => contradiction

theorem serves_labelling {b b' : Labelling} (hs : s.Consistent) (hvars : ∀ x ∈ b.vars, s.Has x)
    (h : b.choose id s = .ok (c, b')) : (labelling b').Serves c s := by
  obtain ⟨rfl, pos, x, hx, -, rfl⟩ := Labelling.choose_eq_ok h
  have hlt : pos < b'.vars.size := (Array.getElem?_eq_some_iff.mp hx).1
  have hwrapped := (Choice.wrapPos_le pos).trans_lt hlt
  intro alternative _
  refine ⟨⟨_, b'.cell (s.view x) alternative, ?_, hvars _ (Array.getElem_mem hwrapped)⟩, _, rfl⟩
  exact Labelling.range_binary (Table.fetch_of_lt hwrapped)
    ⟨hs.least x, hs.view x, hs.greatest x⟩ alternative

theorem serves_bisection {b b' : Bisection} (hs : s.Consistent)
    (hvars : ∀ entry ∈ b.entries, s.Has entry.1) (h : b.choose id s = .ok (c, b')) :
    (bisection b').Serves c s := by
  obtain ⟨rfl, pos, x, need, hx, -, rfl⟩ := Bisection.choose_eq_ok h
  have hlt : pos < b'.entries.size := (Array.getElem?_eq_some_iff.mp hx).1
  have hwrapped := (Choice.wrapPos_le pos).trans_lt hlt
  intro alternative _
  refine ⟨⟨_, Bisection.cell (s.view x) alternative, ?_, hvars _ (Array.getElem_mem hwrapped)⟩, _,
    rfl⟩
  exact Bisection.range_binary (Table.fetch_of_lt hwrapped)
    ⟨hs.least x, hs.view x, hs.greatest x⟩ alternative

theorem serves_slicing {b b' : Slicing} (hvars : ∀ item ∈ b.items, s.Has item.position)
    (h : b.choose id s = .ok (c, b')) : (slicing b').Serves c s := by
  obtain ⟨rfl, pos, item, hitem, -, -, hpos, -, -, -⟩ := Slicing.choose_eq_ok h
  have hlt : pos < b'.items.size := (Array.getElem?_eq_some_iff.mp hitem).1
  have hwrapped : c.pos < b'.items.size := by
    rw [hpos]
    exact (Choice.wrapPos_le pos).trans_lt hlt
  intro alternative hless
  refine ⟨⟨_, Slicing.slice b'.items[c.pos] c alternative, ?_,
    hvars _ (Array.getElem_mem hwrapped)⟩, ?_⟩
  · change b'.range c alternative = _
    unfold Slicing.range
    rw [decide_eq_true hless, Fault.check_true, Table.fetch_of_lt hwrapped]
    rfl
  · change ∃ text, b'.describe c alternative = .ok text
    unfold Slicing.describe
    rw [Table.fetch_of_lt hwrapped]
    exact ⟨_, rfl⟩

/-- A choice serves the strategy that has made it. -/
theorem serves_of_choose (hsplitting : b.IsSplitting) (hs : s.Consistent)
    (hvars : ∀ x ∈ b.vars, s.Has x) (h : Brancher.choose b id s = .ok (c, b')) :
    b'.Serves c s := by
  change b.choose id s = .ok (c, b') at h
  cases b with
  | labelling b =>
      obtain ⟨b'', hchoose, rfl⟩ := Fault.rebuild_eq_ok h
      exact serves_labelling hs (fun x hx => hvars x (Array.mem_toList_iff.mpr hx)) hchoose
  | bisection b =>
      obtain ⟨b'', hchoose, rfl⟩ := Fault.rebuild_eq_ok h
      exact serves_bisection hs (fun entry hentry =>
        hvars entry.1 (List.mem_map_of_mem (Array.mem_toList_iff.mpr hentry))) hchoose
  | slicing b =>
      obtain ⟨b'', hchoose, rfl⟩ := Fault.rebuild_eq_ok h
      exact serves_slicing (fun item hitem =>
        hvars item.position (List.mem_map_of_mem (Array.mem_toList_iff.mpr hitem))) hchoose
  | caseSplit b => contradiction

end Strategy

namespace Node

variable {P : Type} {n n' : Node P Strategy}

/-- The strategies of the node split domains, and their variables exist. -/
def Knows (n : Node P Strategy) : Prop :=
  ∀ b ∈ n.policies, b.IsSplitting ∧ ∀ x ∈ b.vars, n.store.Has x

theorem Knows.strategy (h : n.Knows) {i : Nat} {b : Strategy} (hb : n.branchers[i]? = some b) :
    b.IsSplitting ∧ ∀ x ∈ b.vars, n.store.Has x := by
  have hpolicy := h _ (rewound_mem_policies hb)
  rwa [Strategy.isSplitting_rewound, Strategy.vars_rewound] at hpolicy

theorem chooseAmong_serves (hn : n.Remembers) (hs : n.store.Consistent) (hknows : n.Knows)
    (count : Nat) (hcount : n.firstActive + count ≤ n.branchers.size) :
    ∃ r, n.chooseAmong count = .ok r := by
  -- the induction is on the number of strategies that are still to be asked
  induction count generalizing n with
  | zero => exact ⟨_, rfl⟩
  | succ count ih =>
      have hlt : n.firstActive < n.branchers.size := by omega
      have hb := Array.getElem?_eq_getElem hlt
      obtain ⟨hsplitting, hvars⟩ := hknows.strategy hb
      obtain ⟨left, b', hstatus, hchoose⟩ :=
        Strategy.exists_status n.firstActive hsplitting hs hvars
      obtain ⟨hsame, hremembers, hdone⟩ := Strategy.status_eq_ok hstatus (hn.strategies _ _ hb)
      unfold chooseAmong
      rw [Table.fetch_of_lt hlt]
      simp only [bind, Except.bind, hstatus]
      cases left with
      | true =>
          obtain ⟨r, hr⟩ := hchoose rfl
          rw [if_pos rfl, hr]
          exact ⟨_, rfl⟩
      | false =>
          have hnext := hn.afterStatus hlt hremembers le_rfl fun _ => hdone rfl
          have hpolicies := policies_setIfInBounds hb hsame (n.firstActive + 1)
          rw [if_neg Bool.false_ne_true]
          apply ih hnext hs
          · intro b hmem
            rw [hpolicies] at hmem
            exact hknows b hmem
          · rw [Array.size_setIfInBounds]
            dsimp only
            omega

/-- A node that is not failed can be asked for a choice. -/
theorem exists_choose (hn : n.Remembers) (hs : n.store.Consistent) (hknows : n.Knows) :
    ∃ r, n.choose = .ok r := by
  have hactive := hn.active
  have hfine : n.isFailed = false := by
    unfold isFailed Store.isFailed
    rw [hs.failure]
    rfl
  obtain ⟨r, hr⟩ := chooseAmong_serves hn hs hknows (n.branchers.size - n.firstActive) (by omega)
  refine ⟨r, ?_⟩
  unfold choose
  rw [hfine]
  exact hr

/-- An alternative can be committed when it has a range, and its variable exists. -/
theorem exists_commit_of_range {c : Choice} {b : Strategy} {alternative : Nat} {x : Var}
    {d : Interval} (hb : n.branchers[c.brancher]? = some b) (hlt : alternative < c.alternatives)
    (hrange : b.range c alternative = .ok (x, d)) (hx : n.store.Has x) :
    ∃ r, n.commit c alternative = .ok r := by
  obtain ⟨r, hr⟩ := Store.exists_narrow (fun _ => hx) d.lb d.ub
  unfold commit
  rw [decide_eq_true hlt, Fault.check_true, Table.fetch_eq_ok_iff.mpr hb]
  simp only [bind, Except.bind]
  unfold update
  rw [Strategy.commit_eq, Update.apply_bind, Update.apply_read, hrange]
  simp only [Except.map, Update.apply_discard, Update.narrow, Update.apply_ofFunction, hr]
  exact ⟨_, rfl⟩

/-- An alternative that the choice serves can be described and committed. -/
structure Offers (n : Node P Strategy) (c : Choice) : Prop where
  exists_describe : ∀ alternative < c.alternatives, ∃ text, n.describe c alternative = .ok text
  exists_commit : ∀ alternative < c.alternatives, ∃ r, n.commit c alternative = .ok r

theorem offers_of_choose {c : Choice} (hn : n.Remembers) (hs : n.store.Consistent)
    (hknows : n.Knows) (h : n.choose = .ok (some c, n')) : n'.Offers c := by
  have hchooses := hn.chooses h
  obtain ⟨b, hb, hchoose⟩ := hchooses.strategy c rfl
  have hknows' : n'.Knows := by
    intro other hother
    rw [hchooses.policies] at hother
    rw [hchooses.store]
    exact hknows other hother
  obtain ⟨hsplitting, hvars⟩ := hknows'.strategy hb
  rw [← hchooses.store] at hs hchoose
  have hserves := Strategy.serves_of_choose hsplitting hs hvars hchoose
  refine ⟨fun alternative hlt => ?_, fun alternative hlt => ?_⟩
  · obtain ⟨-, text, htext⟩ := hserves alternative hlt
    unfold describe
    rw [Table.fetch_eq_ok_iff.mpr hb]
    exact ⟨text, htext⟩
  · obtain ⟨⟨x, d, hrange, hx⟩, -⟩ := hserves alternative hlt
    exact exists_commit_of_range hb hlt hrange hx

end Node

end FiniteDomain
