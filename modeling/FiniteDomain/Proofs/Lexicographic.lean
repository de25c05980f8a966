import FiniteDomain.Proofs.Ordering

/-!
# Lexicographic order

A labelling that takes its variables as they come gives values to them from the first to the last, so
that it goes through the assignments in lexicographic order.  Propagation may decide later variables
before earlier ones, but the variables before the one that a choice is made for are decided.  The
assignments of the node agree on them, and differ first where the alternatives do.
-/

namespace FiniteDomain

namespace Preference

/-- A labelling with the preference tries the first value before the second one. -/
def Sooner (v w : Int) : Preference → Prop
  | least => v < w
  | greatest => w < v

instance (p : Preference) : IsStrictTotalOrder Int p.Sooner := by
  cases p with
  | least => exact inferInstanceAs (IsStrictTotalOrder Int (· < ·))
  | greatest => exact inferInstanceAs (IsStrictTotalOrder Int (· > ·))

/-- The values of the listed variables come in lexicographic order. -/
def Before (p : Preference) (xs : List Var) (value other : Var → Int) : Prop :=
  List.Lex p.Sooner (xs.map value) (xs.map other)

variable {p : Preference} {xs : List Var} {value other third : Var → Int}

theorem Before.asymm (h : p.Before xs value other) : ¬ p.Before xs other value :=
  Std.Asymm.asymm (r := List.Lex p.Sooner) _ _ h

theorem Before.trans (h : p.Before xs value other) (hother : p.Before xs other third) :
    p.Before xs value third :=
  (isStrictWeakOrder_of_isOrderConnected (r := List.Lex p.Sooner)).trans _ _ _ h hother

/-- What decides is the first variable whose values differ. -/
theorem before_of_getElem? {pos : Nat} {x : Var} (hx : xs[pos]? = some x)
    (hsame : ∀ i < pos, ∀ y, xs[i]? = some y → value y = other y)
    (hsooner : p.Sooner (value x) (other x)) : p.Before xs value other := by
  have hsplit : xs = xs.take pos ++ x :: xs.drop (pos + 1) := by
    obtain ⟨hlt, rfl⟩ := List.getElem?_eq_some_iff.mp hx
    rw [← List.drop_eq_getElem_cons hlt, List.take_append_drop]
  have hprefix : (xs.take pos).map value = (xs.take pos).map other := by
    apply List.map_congr_left
    intro y hy
    obtain ⟨i, hi⟩ := List.getElem?_of_mem hy
    rw [List.getElem?_take] at hi
    split at hi
    · rename_i hlt
      exact hsame i hlt y hi
    · contradiction
  unfold Before
  rw [hsplit, List.map_append, List.map_append, List.map_cons, List.map_cons, hprefix]
  exact List.Lex.append_left p.Sooner (List.Lex.rel hsooner) _

end Preference

namespace Labelling

variable {b b' : Labelling} {s : Store} {id : BrancherId} {c : Choice}

/-- The first heuristic passes over decided variables only. -/
theorem choose_first_eq_ok (hfirst : b.selection = .first) (h : b.choose id s = .ok (c, b')) :
    ∃ pos x, b.vars[pos]? = some x ∧ s.Has x ∧
      c = .binary id pos (s.view x).lb (s.view x).ub ∧
        ∀ i, b.cursor ≤ i → i < pos → b.undecided s i = .ok false := by
  unfold choose at h
  rcases Fault.bind_eq_ok_iff.mp h with ⟨picked, hpick, hread⟩
  rw [hfirst] at hpick
  rcases Fault.bind_eq_ok_iff.mp hpick with ⟨pos, hscan, hanswer⟩
  split at hanswer
  · obtain rfl := Except.ok.inj hanswer
    rcases Fault.bind_eq_ok_iff.mp hread with ⟨x, hx, hdomain⟩
    rcases Fault.bind_eq_ok_iff.mp hdomain with ⟨d, hd, hresult⟩
    rcases Store.domain_eq_ok_iff.mp hd with ⟨hhas, rfl⟩
    obtain ⟨rfl, -⟩ := Prod.mk.inj (Except.ok.inj hresult)
    exact ⟨pos, x, Table.fetch_eq_ok_iff.mp hx, hhas, rfl,
      fun i hcursor hlt => Brancher.firstUndecided_passed hscan hcursor hlt⟩
  · obtain rfl := Except.ok.inj hanswer
    contradiction

/-- The preferred bound is tried before the values that are left without it. -/
theorem sooner_of_cells {d : Interval} {v w : Int} (hv : v ∈ b.cell d 0) (hw : w ∈ b.cell d 1) :
    b.preference.Sooner v w := by
  unfold cell at hv hw
  cases hpreference : b.preference with
  | least =>
      rw [hpreference] at hv hw
      simp only [Interval.mem_iff, Interval.singleton] at hv hw
      change v < w
      omega
  | greatest =>
      rw [hpreference] at hv hw
      simp only [Interval.mem_iff, Interval.singleton] at hv hw
      change w < v
      omega

/-- The variables before the one that is chosen are decided, so that what the two alternatives grant is
in lexicographic order. -/
theorem before_of_choose (hs : s.Consistent) (hfirst : b.selection = .first)
    (hfits : b.vars.size ≤ Choice.positions) (hremembers : (Strategy.labelling b).Remembers s)
    (h : b.choose id s = .ok (c, b')) {value other : Var → Int} (hvalue : s.Allows value)
    (hother : s.Allows other) {x y : Var} {d e : Interval} (hd : b.range c 0 = .ok (x, d))
    (hvalued : value x ∈ d) (he : b.range c 1 = .ok (y, e)) (hothered : other y ∈ e) :
    b.preference.Before b.vars.toList value other := by
  obtain ⟨pos, z, hz, hhas, rfl, hpassed⟩ := choose_first_eq_ok hfirst h
  have hlt : pos < b.vars.size := (Array.getElem?_eq_some_iff.mp hz).1
  have hfetch : b.vars.fetch (Choice.wrapPos pos) = .ok z := by
    rw [Choice.wrapPos_of_lt (hlt.trans_le hfits)]
    exact Table.fetch_eq_ok_iff.mpr hz
  have hrange : ∀ alternative, b.range (.binary id pos (s.view z).lb (s.view z).ub) alternative =
      .ok (z, b.cell (s.view z) alternative) :=
    range_binary hfetch ⟨hs.least z, hs.view z, hs.greatest z⟩
  rw [hrange 0, Except.ok.injEq, Prod.mk.injEq] at hd
  rw [hrange 1, Except.ok.injEq, Prod.mk.injEq] at he
  rcases hd with ⟨rfl, rfl⟩
  rcases he with ⟨rfl, rfl⟩
  have hentry : b.vars.toList[pos]? = some z := by
    rw [Array.getElem?_toList]
    exact hz
  refine Preference.before_of_getElem? hentry ?_ (sooner_of_cells hvalued hothered)
  intro i hi w hw
  rw [Array.getElem?_toList] at hw
  have hdecided : s.Decides w := by
    by_cases hold : i < b.cursor
    · exact hremembers i hold w hw
    · exact Strategy.decides_of_undecided (hpassed i (not_lt.mp hold) hi) hw
  have hhere := hvalue w _ (Store.domain_of_has hdecided.1)
  have hthere := hother w _ (Store.domain_of_has hdecided.1)
  have hbound := hdecided.2
  rw [Interval.mem_iff] at hhere hthere
  omega

end Labelling

namespace Search

variable {root : Model} {ps : List Posting} {xs : List Var} {preference : Preference}

/-- A single labelling, which takes its variables in the order of a list, makes choices whose
alternatives are in lexicographic order. -/
theorem directs_labelling
    (hpolicies : root.policies = [.labelling (.ofVars xs .first preference)])
    (hfits : xs.length ≤ Choice.positions) : Directs (preference.Before xs) root ps := by
  intro n c n' hn hchoose i j hij hj value hvalue other hother
  have hchooses := hn.sound.remembers.chooses hchoose
  obtain ⟨b, hb, hask⟩ := hchooses.strategy c rfl
  have hpolicy := Node.rewound_mem_policies hb
  rw [hchooses.policies, hn.policies, hpolicies, List.mem_singleton] at hpolicy
  cases b with
  | bisection b => contradiction
  | slicing b => contradiction
  | caseSplit b => contradiction
  | labelling b =>
      obtain ⟨b'', hlabelling, -⟩ := Fault.rebuild_eq_ok hask
      have hfields := Strategy.labelling.inj hpolicy
      rw [Labelling.ofVars, Labelling.mk.injEq] at hfields
      obtain ⟨hvars, hfirst, hpreference, -⟩ := hfields
      obtain ⟨pos, z, -, -, hc, -⟩ := Labelling.choose_first_eq_ok hfirst hlabelling
      obtain ⟨rfl, rfl⟩ : i = 0 ∧ j = 1 := by
        rw [hc] at hj
        change j < 2 at hj
        omega
      rcases hvalue with ⟨hallows, b₀, x, d, hb₀, hd, hmem⟩
      rcases hother with ⟨hallows', b₁, y, e, hb₁, he, hmem'⟩
      obtain rfl := Option.some.inj (hb.symm.trans hb₀)
      obtain rfl := Option.some.inj (hb.symm.trans hb₁)
      have hremembers := hchooses.remembers.strategies _ _ hb
      rw [← hchooses.store] at hlabelling
      have hs : n'.store.Consistent := by
        rw [hchooses.store]
        exact hn.sound.consistent
      have hsize : b.vars.size ≤ Choice.positions := by
        rw [hvars, List.size_toArray]
        exact hfits
      have hbefore := Labelling.before_of_choose hs hfirst hsize hremembers hlabelling hallows
        hallows' hd hmem he hmem'
      rw [hvars, hpreference] at hbefore
      exact hbefore

end Search

end FiniteDomain
