import FiniteDomain.Proofs.Restoring

/-!
# Foreign archives

An archive may come from anywhere.  A number of a brancher that is not there and a position that the
brancher does not have are reported as such.  The bounds are not checked: they may be crossed, and
they may lie far beyond the values of a domain, so that the arithmetic of the brancher leaves the
word.  A labelling and a bisection step past a bound when the second alternative is committed; a
slicing takes the distance of the bounds when the choice is restored.  With any other bounds the
choice is restored, and all its alternatives can be committed.
-/

namespace FiniteDomain

namespace Word

theorem exists_fit_iff {α : Type} {n : Int} (f : Int → α) :
    (∃ r, (do return f (← fit n)) = (.ok r : Except Fault α)) ↔ least ≤ n ∧ n ≤ greatest := by
  constructor
  · rintro ⟨r, hr⟩
    rcases Fault.bind_eq_ok_iff.mp hr with ⟨m, hm, -⟩
    exact (fit_eq_ok_iff.mp hm).2
  · intro hn
    rw [fit_of_mem hn.1 hn.2]
    exact ⟨f n, rfl⟩

end Word

namespace Strategy

variable {b : Strategy} {id : BrancherId} {c : Choice} {pos : Nat} {lo hi : Int} {x : Var}
  {d : Interval}

/-- The bounds that leave the strategy room in the word: for a step past the preferred bound, for a
step past the middle, or for the distance of the bounds. -/
def Bears (lo hi : Int) : Strategy → Prop
  | labelling b =>
    match b.preference with
    | .least => lo < Word.greatest
    | .greatest => Word.least < hi
  | bisection _ => lo < Word.greatest ∨ hi < Word.greatest
  | slicing _ => Word.least ≤ hi - lo ∧ hi - lo ≤ Word.greatest
  | caseSplit _ => True

/-- The bounds that a domain may have are borne, in whatever order. -/
theorem bears_of_values (b : Strategy) (hlo : Word.minValue ≤ lo ∧ lo ≤ Word.maxValue)
    (hhi : Word.minValue ≤ hi ∧ hi ≤ Word.maxValue) : b.Bears lo hi := by
  simp only [Word.minValue, Word.maxValue] at hlo hhi
  cases b with
  | labelling b =>
      cases hpreference : b.preference with
      | least =>
          simp only [Bears, hpreference, Word.greatest]
          omega
      | greatest =>
          simp only [Bears, hpreference, Word.least]
          omega
  | bisection b =>
      simp only [Bears, Word.greatest]
      omega
  | slicing b =>
      simp only [Bears, Word.least, Word.greatest]
      omega
  | caseSplit b => trivial

/-- Where the bounds are computed, the variable is known before. -/
theorem eq_of_computed {y : Var} {bound : Except Fault Int} {range : Int → Interval}
    (h : (do return (y, range (← bound))) = (.ok (x, d) : Except Fault (Var × Interval))) : y = x := by
  rcases Fault.bind_eq_ok_iff.mp h with ⟨v, -, hpair⟩
  exact (Prod.mk.inj (Except.ok.inj hpair)).1

theorem mem_vars_of_range {alternative : Nat} (h : b.range c alternative = .ok (x, d)) :
    x ∈ b.vars := by
  cases b with
  | labelling b =>
      rcases Fault.bind_eq_ok_iff.mp h with ⟨y, hy, hrest⟩
      have hsame : y = x := by
        split at hrest
        · exact (Prod.mk.inj (Except.ok.inj hrest)).1
        · split at hrest
          · exact eq_of_computed hrest
          · exact eq_of_computed hrest
      rw [← hsame]
      exact Array.mem_toList_iff.mpr (Array.mem_of_getElem? (Table.fetch_eq_ok_iff.mp hy))
  | bisection b =>
      rcases Fault.bind_eq_ok_iff.mp h with ⟨⟨y, need⟩, hy, hrest⟩
      have hsame : y = x := by
        dsimp only at hrest
        split at hrest
        · exact (Prod.mk.inj (Except.ok.inj hrest)).1
        · exact eq_of_computed hrest
      rw [← hsame]
      have hentry := Array.mem_toList_iff.mpr (Array.mem_of_getElem? (Table.fetch_eq_ok_iff.mp hy))
      exact List.mem_map_of_mem (f := Prod.fst) hentry
  | slicing b =>
      rcases Fault.bind_eq_ok_iff.mp h with ⟨_, -, hrest⟩
      rcases Fault.bind_eq_ok_iff.mp hrest with ⟨item, hitem, hpair⟩
      rw [← (Prod.mk.inj (Except.ok.inj hpair)).1]
      have hmem := Array.mem_toList_iff.mpr (Array.mem_of_getElem? (Table.fetch_eq_ok_iff.mp hitem))
      exact List.mem_map_of_mem hmem
  | caseSplit b =>
      rcases Fault.bind_eq_ok_iff.mp h with ⟨e, -, hpair⟩
      rw [← (Prod.mk.inj (Except.ok.inj hpair)).1]
      exact List.mem_singleton_self b.var

section Ranges

theorem forall_alternative_iff {p : Nat → Prop} (htwo : c.alternatives = 2) (hfirst : p 0) :
    (∀ alternative < c.alternatives, p alternative) ↔ p 1 := by
  rw [htwo]
  constructor
  · intro hall
    exact hall 1 (by decide)
  · intro hsecond alternative hlt
    interval_cases alternative
    · exact hfirst
    · exact hsecond

/-- The first alternative is the preferred bound; the second one steps past it. -/
theorem labelling_ranges_iff {b : Labelling} (hpos : c.pos < b.vars.size)
    (hlo : Word.least ≤ c.min) (hhi : c.max ≤ Word.greatest) (htwo : c.alternatives = 2) :
    (∀ alternative < c.alternatives, ∃ r, (labelling b).range c alternative = .ok r) ↔
      (labelling b).Bears c.min c.max := by
  have hfetch := Table.fetch_of_lt hpos
  have hfirst : ∃ r, (labelling b).range c 0 = .ok r := by
    change ∃ r, b.range c 0 = .ok r
    unfold Labelling.range
    rw [hfetch]
    exact ⟨_, rfl⟩
  have hsecond : (∃ r, (labelling b).range c 1 = .ok r) ↔ (labelling b).Bears c.min c.max := by
    change (∃ r, b.range c 1 = .ok r) ↔ _
    unfold Labelling.range Labelling.preferred
    rw [hfetch]
    cases hpreference : b.preference with
    | least =>
        simp only [Bears, hpreference]
        refine (Word.exists_fit_iff fun v => (b.vars[c.pos], Interval.mk v Word.greatest)).trans ?_
        omega
    | greatest =>
        simp only [Bears, hpreference]
        refine (Word.exists_fit_iff fun v => (b.vars[c.pos], Interval.mk Word.least v)).trans ?_
        omega
  exact (forall_alternative_iff htwo hfirst).trans hsecond

/-- The first alternative ends in the middle; the second one starts after it. -/
theorem bisection_ranges_iff {b : Bisection} (hpos : c.pos < b.entries.size)
    (hlo : Word.least ≤ c.min ∧ c.min ≤ Word.greatest)
    (hhi : Word.least ≤ c.max ∧ c.max ≤ Word.greatest) (htwo : c.alternatives = 2) :
    (∀ alternative < c.alternatives, ∃ r, (bisection b).range c alternative = .ok r) ↔
      (bisection b).Bears c.min c.max := by
  have hfetch := Table.fetch_of_lt hpos
  have hfirst : ∃ r, (bisection b).range c 0 = .ok r := by
    change ∃ r, b.range c 0 = .ok r
    unfold Bisection.range
    rw [hfetch]
    exact ⟨_, rfl⟩
  have hsecond : (∃ r, (bisection b).range c 1 = .ok r) ↔
      (bisection b).Bears c.min c.max := by
    change (∃ r, b.range c 1 = .ok r) ↔ _
    unfold Bisection.range Bears
    rw [hfetch]
    refine (Word.exists_fit_iff fun v =>
      (b.entries[c.pos].1, Interval.mk v Word.greatest)).trans ?_
    -- the middle reaches the greatest word only between two greatest words
    unfold Bisection.middle
    rw [Int.fdiv_eq_ediv_of_nonneg _ (by decide)]
    simp only [Word.least, Word.greatest] at *
    omega
  exact (forall_alternative_iff htwo hfirst).trans hsecond

theorem slicing_range_eq_ok {b : Slicing} (hpos : c.pos < b.items.size) {alternative : Nat}
    (hlt : alternative < c.alternatives) : ∃ r, (slicing b).range c alternative = .ok r := by
  change ∃ r, b.range c alternative = .ok r
  unfold Slicing.range
  rw [decide_eq_true hlt, Fault.check_true, Table.fetch_of_lt hpos]
  exact ⟨_, rfl⟩

end Ranges

section Restored

/-- The strategy restores a choice, and none of its alternatives leaves the word. -/
def Restores (b : Strategy) (id : BrancherId) (pos : Nat) (lo hi : Int) : Prop :=
  ∃ c, Brancher.restore b id pos lo hi = .ok (.ok c) ∧
    ∀ alternative < c.alternatives, ∃ r, b.range c alternative = .ok r

theorem restore_of_positions_le (hsplitting : b.IsSplitting) (hpos : b.positions ≤ pos) :
    Brancher.restore b id pos lo hi =
      .ok (.error (.invalidPosition id (Choice.wrapPos pos) b.positions)) := by
  have hcheck : ∀ size, size ≤ pos → Brancher.checkPos id pos size =
      .error (.invalidPosition id (Choice.wrapPos pos) size) := by
    intro size hsize
    exact if_neg (not_lt.mpr hsize)
  cases b with
  | labelling b =>
      change Except.ok (Brancher.checkPos id pos b.vars.size >>= _) = _
      rw [hcheck b.vars.size hpos]
      rfl
  | bisection b =>
      change Except.ok (Brancher.checkPos id pos b.entries.size >>= _) = _
      rw [hcheck b.entries.size hpos]
      rfl
  | slicing b =>
      change b.restore id pos lo hi = _
      unfold Slicing.restore
      rw [hcheck b.items.size hpos]
      rfl
  | caseSplit b => contradiction

theorem slicing_restores_iff {b : Slicing} (hpos : pos < b.items.size)
    (hword : Choice.wrapPos pos = pos) :
    (slicing b).Restores id pos lo hi ↔ (slicing b).Bears lo hi := by
  have hitem := Array.getElem?_eq_getElem hpos
  constructor
  · rintro ⟨c, hrestore, -⟩
    rw [slicing_restore hitem] at hrestore
    rcases Fault.bind_eq_ok_iff.mp hrestore with ⟨width, hwidth, -⟩
    exact (Word.fit_eq_ok_iff.mp hwidth).2
  · intro hbears
    rcases Slicing.exists_count (le_max_right (hi - lo) 0) b.items[pos].width.nonneg with
      ⟨count, hcount, hcountpos⟩
    have hrestore : Brancher.restore (slicing b) id pos lo hi =
        .ok (.ok ⟨id, Choice.wrapPos pos, lo, hi, count, hcountpos⟩) := by
      rw [slicing_restore hitem, Word.fit_of_mem hbears.1 hbears.2]
      simp only [bind, Except.bind, hcount, Choice.promised, dif_pos hcountpos]
      rfl
    refine ⟨_, hrestore, ?_⟩
    intro alternative hlt
    apply slicing_range_eq_ok _ hlt
    change Choice.wrapPos pos < b.items.size
    rw [hword]
    exact hpos

/-- Of the positions that there are, a choice is restored and can be committed if the bounds leave
the strategy room in the word, and only then. -/
theorem restores_iff (hsplitting : b.IsSplitting) (hpos : pos < b.positions)
    (hword : Choice.wrapPos pos = pos) (hlo : Word.least ≤ lo ∧ lo ≤ Word.greatest)
    (hhi : Word.least ≤ hi ∧ hi ≤ Word.greatest) :
    b.Restores id pos lo hi ↔ b.Bears lo hi := by
  -- a labelling and a bisection restore the same binary choice from all bounds
  have hbinary : Brancher.restore b id pos lo hi = .ok (.ok (.binary id pos lo hi)) →
      (b.Restores id pos lo hi ↔ ∀ alternative < (Choice.binary id pos lo hi).alternatives,
        ∃ r, b.range (.binary id pos lo hi) alternative = .ok r) := by
    intro hrestore
    constructor
    · rintro ⟨c, hc, hranges⟩
      rw [hrestore] at hc
      rw [Except.ok.inj (Except.ok.inj hc)]
      exact hranges
    · intro hranges
      exact ⟨_, hrestore, hranges⟩
  have hwrapped : Choice.wrapPos pos < b.positions := by
    rw [hword]
    exact hpos
  cases b with
  | labelling b =>
      rw [hbinary (labelling_restore hpos)]
      exact labelling_ranges_iff hwrapped hlo.1 hhi.2 rfl
  | bisection b =>
      rw [hbinary (bisection_restore hpos)]
      exact bisection_ranges_iff hwrapped hlo hhi rfl
  | slicing b => exact slicing_restores_iff hpos hword
  | caseSplit b => contradiction

theorem brancher_of_restore (hsplitting : b.IsSplitting)
    (h : Brancher.restore b id pos lo hi = .ok (.ok c)) : c.brancher = id := by
  by_cases hpos : pos < b.positions
  · cases b with
    | labelling b =>
        rw [labelling_restore hpos] at h
        rw [← Except.ok.inj (Except.ok.inj h)]
        rfl
    | bisection b =>
        rw [bisection_restore hpos] at h
        rw [← Except.ok.inj (Except.ok.inj h)]
        rfl
    | slicing b =>
        rw [slicing_restore (Array.getElem?_eq_getElem hpos)] at h
        rcases Fault.bind_eq_ok_iff.mp h with ⟨width, -, hcounted⟩
        rcases Fault.bind_eq_ok_iff.mp hcounted with ⟨count, -, hmade⟩
        rcases Fault.bind_eq_ok_iff.mp hmade with ⟨c', hpromised, hsame⟩
        unfold Choice.promised at hpromised
        split at hpromised
        · rw [← Except.ok.inj (Except.ok.inj hsame), ← Except.ok.inj hpromised]
        · contradiction
    | caseSplit b => contradiction
  · rw [restore_of_positions_le hsplitting (not_lt.mp hpos)] at h
    have herror := Except.ok.inj h
    contradiction

end Restored

end Strategy

namespace Node

variable {P : Type} {n : Node P Strategy} {a : Archive} {b : Strategy} {c : Choice}

/-- The node responds to the archive: with an error, if it has no brancher of the number or the brancher
has no such position, and otherwise with a choice of which each alternative can be committed. -/
def Responds (n : Node P Strategy) (a : Archive) : Prop :=
  match n.branchers[a.brancher]? with
  | none => n.restore a = .ok (.error (.unknownBrancher a.brancher))
  | some b =>
    if a.pos < b.positions then
      ∃ c, n.restore a = .ok (.ok c) ∧
        ∀ alternative < c.alternatives, ∃ r, n.commit c alternative = .ok r
    else
      n.restore a = .ok (.error (.invalidPosition a.brancher a.pos b.positions))

theorem exists_commit_iff {alternative : Nat} (hb : n.branchers[c.brancher]? = some b)
    (hvars : ∀ x ∈ b.vars, n.store.Has x) (hlt : alternative < c.alternatives) :
    (∃ r, n.commit c alternative = .ok r) ↔ ∃ r, b.range c alternative = .ok r := by
  constructor
  · rintro ⟨⟨reply, m⟩, hcommit⟩
    rcases commit_eq_update hcommit with ⟨b', hb', happly, -⟩
    rcases Strategy.commit_eq_ok happly with ⟨x, d, changed, hrange, -⟩
    rw [hb] at hb'
    rw [Option.some.inj hb']
    exact ⟨(x, d), hrange⟩
  · rintro ⟨⟨x, d⟩, hrange⟩
    exact exists_commit_of_range hb hlt hrange (hvars x (Strategy.mem_vars_of_range hrange))

/-- A node responds to an archive unless the bounds leave the brancher no room in the word. -/
theorem responds_iff (ha : a.Fits)
    (hbranchers : ∀ b ∈ n.branchers, b.IsSplitting ∧ ∀ x ∈ b.vars, n.store.Has x) :
    n.Responds a ↔ ∀ b, n.branchers[a.brancher]? = some b → a.pos < b.positions →
      b.Bears a.min a.max := by
  have hword : Choice.wrapPos a.pos = a.pos :=
    Choice.wrapPos_of_lt (Nat.lt_succ_of_le ha.pos)
  unfold Responds
  cases hb : n.branchers[a.brancher]? with
  | none =>
      have hrestore : n.restore a = .ok (.error (.unknownBrancher a.brancher)) := by
        unfold restore
        rw [hb]
      simp [hrestore]
  | some b =>
      have hrestore : n.restore a = Brancher.restore b a.brancher a.pos a.min a.max := by
        unfold restore
        rw [hb]
      rcases hbranchers b (Array.mem_of_getElem? hb) with ⟨hsplitting, hvars⟩
      by_cases hpos : a.pos < b.positions
      · have hcommits : ∀ c, Brancher.restore b a.brancher a.pos a.min a.max = .ok (.ok c) →
            ((∀ alternative < c.alternatives, ∃ r, n.commit c alternative = .ok r) ↔
              ∀ alternative < c.alternatives, ∃ r, b.range c alternative = .ok r) := by
          intro c hc
          rw [← Strategy.brancher_of_restore hsplitting hc] at hb
          constructor
          · intro hall alternative hlt
            exact (exists_commit_iff hb hvars hlt).mp (hall alternative hlt)
          · intro hall alternative hlt
            exact (exists_commit_iff hb hvars hlt).mpr (hall alternative hlt)
        have hbears : (∀ b', some b = some b' → a.pos < b'.positions → b'.Bears a.min a.max) ↔
            b.Bears a.min a.max := by
          simp [hpos]
        rw [hbears, ← Strategy.restores_iff hsplitting hpos hword ha.min ha.max]
        dsimp only
        rw [if_pos hpos, hrestore]
        apply exists_congr
        intro c
        exact and_congr_right (hcommits c)
      · dsimp only
        rw [if_neg hpos, hrestore, Strategy.restore_of_positions_le hsplitting (not_lt.mp hpos), hword]
        simp [hpos]

/-- In the strip the slicing responds to crossed bounds, but not to bounds that are too far apart.  The
labelling has two positions, and says so when it is asked for the third one. -/
theorem responds_iff_strip :
    Node.Responds Model.strip ⟨0, 1, 7, -2⟩ ∧ ¬ Node.Responds Model.strip ⟨0, 1, Word.least, 0⟩ ∧
      Node.Responds Model.strip ⟨2, 2, Word.greatest, 0⟩ := by
  have hbranchers : ∀ b ∈ Model.strip.branchers,
      b.IsSplitting ∧ ∀ x ∈ b.vars, Model.strip.store.Has x := by
    decide
  refine ⟨(responds_iff ⟨by decide, by decide, by decide, by decide⟩ hbranchers).mpr ?_, ?_,
    (responds_iff ⟨by decide, by decide, by decide, by decide⟩ hbranchers).mpr ?_⟩
  · intro b hb _
    exact b.bears_of_values (by decide) (by decide)
  · intro hresponds
    have hbears := (responds_iff ⟨by decide, by decide, by decide, by decide⟩ hbranchers).mp hresponds
      (.slicing Model.strewn) rfl (by decide)
    exact absurd hbears.2 (by decide)
  · intro b hb hpos
    obtain rfl := Option.some.inj hb
    exact absurd hpos (by decide)

/-- A node can be made that does not respond to every archive. -/
theorem exists_not_responds :
    ¬ ∀ n : Model, Node.empty.Leads n → n.store.failure = none →
      (∀ b ∈ n.branchers, b.IsSplitting ∧ ∀ x ∈ b.vars, n.store.Has x) →
        ∀ a : Archive, a.Fits → Node.Responds n a := by
  intro hall
  have hresponds : ∃ c, Model.strip.restore ⟨0, 0, Word.greatest, -2⟩ = .ok (.ok c) ∧
      ∀ alternative < c.alternatives, ∃ r, Model.strip.commit c alternative = .ok r :=
    hall Model.strip Model.assembled_strip.leads rfl (by decide) ⟨0, 0, Word.greatest, -2⟩
      ⟨by decide, by decide, by decide, by decide⟩
  rcases hresponds with ⟨c, hrestore, -⟩
  have hoverflow : Model.strip.restore ⟨0, 0, Word.greatest, -2⟩ = .error .overflow := rfl
  rw [hoverflow] at hrestore
  contradiction

end Node

end FiniteDomain
