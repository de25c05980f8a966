import FiniteDomain.Node
import FiniteDomain.Proofs.Splitting

/-!
# Deciding

What branchers remember.  A labelling remembers that the variables before its cursor are decided, and
a node that the branchers before the first active one are.  Both stay true, since domains only shrink
and keep a value.  So when a node has no choice left, each variable of each labelling is decided,
although nobody has looked at most of them again.
-/

namespace FiniteDomain

namespace Store

/-- The variable has one value left. -/
def Decides (s : Store) (x : Var) : Prop :=
  s.Has x ∧ (s.view x).lb = (s.view x).ub

theorem Decides.below {s t : Store} {x : Var} (h : s.Decides x) (hts : t.Below s)
    (ht : t.view.Consistent) : t.Decides x := by
  rcases h with ⟨hhas, hbound⟩
  have hle := hts.view x
  have hne := ht x
  rw [Interval.le_iff] at hle
  refine ⟨hts.has_iff.mpr hhas, ?_⟩
  omega

end Store

namespace Brancher

theorem firstUndecided_passed {undecided : Nat → Except Fault Bool} {count start i pos : Nat}
    (h : firstUndecided undecided count start = .ok i) (hstart : start ≤ pos) (hpos : pos < i) :
    undecided pos = .ok false := by
  induction count generalizing start with
  | zero =>
      unfold firstUndecided at h
      rw [Except.ok.injEq] at h
      omega
  | succ count ih =>
      unfold firstUndecided at h
      split at h
      · contradiction
      · rw [Except.ok.injEq] at h
        omega
      · rename_i hfirst
        by_cases hhere : pos = start
        · subst hhere
          exact hfirst
        · exact ih h (by omega)

end Brancher

namespace Strategy

/-- The strategy as it was before it remembered anything. -/
def rewound : Strategy → Strategy
  | labelling b => labelling { b with cursor := 0 }
  | bisection b => bisection { b with cursor := 0 }
  | slicing b => slicing { b with cursor := 0 }
  | caseSplit b => caseSplit b

/-- The variables that have to be decided before the strategy has no decision left. -/
def labels : Strategy → List Var
  | labelling b => b.vars.toList
  | _ => []

/-- What the strategy remembers of the store is true. -/
def Remembers (s : Store) : Strategy → Prop
  | labelling b => ∀ pos < b.cursor, ∀ x, b.vars[pos]? = some x → s.Decides x
  | _ => True

variable {b b' : Strategy} {s t : Store} {id : BrancherId} {c : Choice}

@[simp]
theorem labels_rewound (b : Strategy) : b.rewound.labels = b.labels := by
  cases b <;> rfl

@[simp]
theorem isSplitting_rewound (b : Strategy) : b.rewound.IsSplitting ↔ b.IsSplitting := by
  cases b <;> rfl

@[simp]
theorem addressable_rewound (b : Strategy) : b.rewound.Addressable ↔ b.Addressable := by
  cases b <;> rfl

theorem remembers_of_rewound_eq (h : b.rewound = b) : b.Remembers s := by
  cases b with
  | labelling b =>
      have hcursor : b.cursor = 0 := by
        unfold rewound at h
        rw [Strategy.labelling.injEq] at h
        rw [← h]
      intro pos hpos
      omega
  | bisection b => trivial
  | slicing b => trivial
  | caseSplit b => trivial

theorem Remembers.of_decides (h : b.Remembers s) (hst : ∀ x, s.Decides x → t.Decides x) :
    b.Remembers t := by
  cases b with
  | labelling b =>
      intro pos hpos x hx
      exact hst x (h pos hpos x hx)
  | bisection b => trivial
  | slicing b => trivial
  | caseSplit b => trivial

theorem decides_of_undecided {b : Labelling} {pos : Nat} {x : Var}
    (h : b.undecided s pos = .ok false) (hx : b.vars[pos]? = some x) : s.Decides x := by
  unfold Labelling.undecided at h
  rcases Fault.bind_eq_ok_iff.mp h with ⟨y, hy, hread⟩
  rcases Fault.bind_eq_ok_iff.mp hread with ⟨bound, hbound, hnot⟩
  rcases Fault.bind_eq_ok_iff.mp hbound with ⟨d, hd, hvalue⟩
  rw [Table.fetch_eq_ok_iff.mpr hx, Except.ok.injEq] at hy
  rw [← hy] at hd
  rcases Store.domain_eq_ok_iff.mp hd with ⟨hhas, hdomain⟩
  simp only [pure, Except.pure, Except.ok.injEq] at hnot hvalue
  rw [← hvalue, ← hdomain] at hnot
  simp only [Interval.isBound, Bool.not_eq_false', decide_eq_true_eq] at hnot
  exact ⟨hhas, hnot⟩

theorem status_labelling {b b' : Labelling} {left : Bool} (h : b.status s = .ok (left, b'))
    (hb : (labelling b).Remembers s) :
    (labelling b').rewound = (labelling b).rewound ∧ (labelling b').Remembers s ∧
      (left = false → ∀ x ∈ (labelling b').labels, s.Decides x) := by
  unfold Labelling.status at h
  rcases Fault.bind_eq_ok_iff.mp h with ⟨i, hi, h⟩
  simp only [pure, Except.pure, Except.ok.injEq, Prod.mk.injEq] at h
  rcases h with ⟨rfl, rfl⟩
  have hdecides : ∀ pos < i, ∀ x, b.vars[pos]? = some x → s.Decides x := by
    intro pos hpos x hx
    by_cases hold : pos < b.cursor
    · exact hb pos hold x hx
    · exact decides_of_undecided (Brancher.firstUndecided_passed hi (by omega) hpos) hx
  refine ⟨rfl, hdecides, ?_⟩
  intro hdone x hx
  rcases Array.mem_iff_getElem.mp (Array.mem_toList_iff.mp hx) with ⟨pos, hlt, hpos⟩
  have hless : pos < b.vars.size := hlt
  rw [decide_eq_false_iff_not] at hdone
  exact hdecides pos (by omega) x (Array.getElem?_eq_some_iff.mpr ⟨hlt, hpos⟩)

theorem status_eq_ok {left : Bool} (h : Brancher.status b s = .ok (left, b'))
    (hb : b.Remembers s) :
    b'.rewound = b.rewound ∧ b'.Remembers s ∧ (left = false → ∀ x ∈ b'.labels, s.Decides x) := by
  change b.status s = .ok (left, b') at h
  cases b with
  | labelling b =>
      obtain ⟨b'', hstatus, rfl⟩ := Fault.rebuild_eq_ok h
      exact status_labelling hstatus hb
  | bisection b =>
      obtain ⟨b'', hstatus, rfl⟩ := Fault.rebuild_eq_ok h
      change b.status s = _ at hstatus
      unfold Bisection.status at hstatus
      rcases Fault.bind_eq_ok_iff.mp hstatus with ⟨i, -, hstatus⟩
      simp only [pure, Except.pure, Except.ok.injEq, Prod.mk.injEq] at hstatus
      rcases hstatus with ⟨-, rfl⟩
      exact ⟨rfl, trivial, by simp [labels]⟩
  | slicing b =>
      obtain ⟨b'', hstatus, rfl⟩ := Fault.rebuild_eq_ok h
      change b.status s = _ at hstatus
      unfold Slicing.status at hstatus
      rcases Fault.bind_eq_ok_iff.mp hstatus with ⟨i, -, hstatus⟩
      simp only [pure, Except.pure, Except.ok.injEq, Prod.mk.injEq] at hstatus
      rcases hstatus with ⟨-, rfl⟩
      exact ⟨rfl, trivial, by simp [labels]⟩
  | caseSplit b =>
      obtain ⟨b'', hstatus, rfl⟩ := Fault.rebuild_eq_ok h
      rcases Fault.bind_eq_ok_iff.mp hstatus with ⟨bound, -, hstatus⟩
      simp only [pure, Except.pure, Except.ok.injEq, Prod.mk.injEq] at hstatus
      rcases hstatus with ⟨-, rfl⟩
      exact ⟨rfl, trivial, by simp [labels]⟩

theorem choose_eq_ok (h : Brancher.choose b id s = .ok (c, b')) : b' = b ∧ c.brancher = id := by
  change b.choose id s = .ok (c, b') at h
  cases b with
  | labelling b =>
      obtain ⟨b'', hchoose, rfl⟩ := Fault.rebuild_eq_ok h
      obtain ⟨rfl, pos, x, -, -, rfl⟩ := Labelling.choose_eq_ok hchoose
      exact ⟨rfl, rfl⟩
  | bisection b =>
      obtain ⟨b'', hchoose, rfl⟩ := Fault.rebuild_eq_ok h
      obtain ⟨rfl, pos, x, need, -, -, rfl⟩ := Bisection.choose_eq_ok hchoose
      exact ⟨rfl, rfl⟩
  | slicing b =>
      obtain ⟨b'', hchoose, rfl⟩ := Fault.rebuild_eq_ok h
      obtain ⟨rfl, pos, item, -, -, hid, -⟩ := Slicing.choose_eq_ok hchoose
      exact ⟨rfl, hid⟩
  | caseSplit b =>
      obtain ⟨b'', hchoose, rfl⟩ := Fault.rebuild_eq_ok h
      rcases Fault.bind_eq_ok_iff.mp hchoose with ⟨d, -, hchoose⟩
      rcases Fault.bind_eq_ok_iff.mp hchoose with ⟨choice, hchoice, hchoose⟩
      simp only [pure, Except.pure, Except.ok.injEq, Prod.mk.injEq] at hchoose
      rcases hchoose with ⟨rfl, rfl⟩
      unfold Choice.promised at hchoice
      split at hchoice
      · rw [Except.ok.injEq] at hchoice
        subst hchoice
        exact ⟨rfl, rfl⟩
      · contradiction

end Strategy

namespace Node

variable {P : Type}

theorem update_eq_ok {α B : Type} {n n' : Node P B} {u : Update α} {reply : Except Wipeout α}
    (h : n.update u = .ok (reply, n')) :
    u.apply n.store = .ok (reply, n'.store) ∧ n' = { n with store := n'.store } := by
  unfold Node.update at h
  rcases Fault.bind_eq_ok_iff.mp h with ⟨⟨reply', t⟩, hu, heq⟩
  simp only [pure, Except.pure, Except.ok.injEq, Prod.mk.injEq] at heq
  rcases heq with ⟨rfl, rfl⟩
  exact ⟨hu, rfl⟩

/-- The strategies of a node, whatever they remember. -/
def policies (n : Node P Strategy) : List Strategy :=
  n.branchers.toList.map Strategy.rewound

/-- What a node and its strategies remember is true. -/
structure Remembers (n : Node P Strategy) : Prop where
  active : n.firstActive ≤ n.branchers.size
  strategies : ∀ (i : Nat) (b : Strategy), n.branchers[i]? = some b → b.Remembers n.store
  done : ∀ (i : Nat) (b : Strategy), i < n.firstActive → n.branchers[i]? = some b →
    ∀ x ∈ b.labels, n.store.Decides x

variable {n n' : Node P Strategy} {b b' : Strategy} {choice : Option Choice}

theorem rewound_mem_policies {i : Nat} (hb : n.branchers[i]? = some b) :
    b.rewound ∈ n.policies := by
  unfold policies
  apply List.mem_map_of_mem
  rw [← Array.getElem?_toList] at hb
  exact List.mem_of_getElem? hb

theorem Remembers.below (h : n.Remembers) {t : Store} (hts : t.Below n.store)
    (ht : t.view.Consistent) : ({ n with store := t } : Node P Strategy).Remembers where
  active := h.active
  strategies i b hb := (h.strategies i b hb).of_decides fun _ hx => hx.below hts ht
  done i b hi hb x hx := (h.done i b hi hb x hx).below hts ht

/-- What asking for a choice does: no domain changes, and the answer comes from a strategy of the
node, or from the fact that all of them were asked. -/
structure Chooses (n : Node P Strategy) (choice : Option Choice) (n' : Node P Strategy) : Prop where
  store : n'.store = n.store
  engine : n'.engine = n.engine
  policies : n'.policies = n.policies
  remembers : n'.Remembers
  strategy : ∀ c, choice = some c → ∃ b, n'.branchers[c.brancher]? = some b ∧
    Brancher.choose b c.brancher n.store = .ok (c, b)

theorem policies_setIfInBounds {i : Nat} (hb : n.branchers[i]? = some b)
    (hsame : b'.rewound = b.rewound) (firstActive : Nat) :
    ({ n with branchers := n.branchers.setIfInBounds i b', firstActive := firstActive } :
      Node P Strategy).policies = n.policies := by
  apply List.ext_getElem?
  intro j
  unfold policies
  simp only [List.getElem?_map, Array.getElem?_toList, Array.getElem?_setIfInBounds]
  by_cases hj : i = j
  · subst hj
    rcases Array.getElem?_eq_some_iff.mp hb with ⟨hlt, hentry⟩
    simp [hlt, hsame, hentry]
  · simp [hj]

/-- What holds of the strategies at their places still does once one of them is replaced, if it holds
of the new one at that place. -/
theorem forall_setIfInBounds {bs : Array Strategy} {k : Nat} {Q : Nat → Strategy → Prop}
    (hothers : ∀ i other, i ≠ k → bs[i]? = some other → Q i other) (hb : Q k b) :
    ∀ i other, (bs.setIfInBounds k b)[i]? = some other → Q i other := by
  intro i other hother
  rw [Array.getElem?_setIfInBounds] at hother
  split at hother
  · rename_i hhere
    obtain ⟨-, hsame⟩ := Option.ite_none_right_eq_some.mp hother
    rw [← Option.some.inj hsame, ← hhere]
    exact hb
  · rename_i helsewhere
    exact hothers i other (Ne.symm helsewhere) hother

/-- A strategy that has said truly what it remembers, and is passed over only when it is done. -/
theorem Remembers.afterStatus (h : n.Remembers) (hlt : n.firstActive < n.branchers.size)
    (hb : b.Remembers n.store) {firstActive : Nat} (hnext : firstActive ≤ n.firstActive + 1)
    (hdone : n.firstActive < firstActive → ∀ x ∈ b.labels, n.store.Decides x) :
    ({ n with
      branchers := n.branchers.setIfInBounds n.firstActive b
      firstActive := firstActive } : Node P Strategy).Remembers where
  active := by
    rw [Array.size_setIfInBounds]
    exact hnext.trans hlt
  strategies := forall_setIfInBounds (fun i other _ => h.strategies i other) hb
  done i other hi hother := by
    have hall := forall_setIfInBounds (Q := fun i other =>
      i < firstActive → ∀ x ∈ other.labels, n.store.Decides x)
      (fun i other hne hother hi => h.done i other (by omega) hother) hdone
    exact hall i other hother hi

theorem chooseAmong_eq_ok {count : Nat} (h : n.chooseAmong count = .ok (choice, n'))
    (hn : n.Remembers) :
    n.Chooses choice n' ∧ (choice = none → n'.firstActive = n.firstActive + count) := by
  -- the induction is on the number of strategies that are still to be asked
  induction count generalizing n with
  | zero =>
      unfold chooseAmong at h
      simp only [pure, Except.pure, Except.ok.injEq, Prod.mk.injEq] at h
      rcases h with ⟨rfl, rfl⟩
      exact ⟨⟨rfl, rfl, rfl, hn, by simp⟩, fun _ => rfl⟩
  | succ count ih =>
      unfold chooseAmong at h
      rcases Fault.bind_eq_ok_iff.mp h with ⟨b, hfetch, hask⟩
      rcases Fault.bind_eq_ok_iff.mp hask with ⟨⟨left, b'⟩, hstatus, hreply⟩
      have hb : n.branchers[n.firstActive]? = some b := Table.fetch_eq_ok_iff.mp hfetch
      obtain ⟨hsame, hremembers, hdone⟩ :=
        Strategy.status_eq_ok hstatus (hn.strategies _ b hb)
      have hlt : n.firstActive < n.branchers.size := (Array.getElem?_eq_some_iff.mp hb).1
      cases left with
      | true =>
          simp only [if_true] at hreply
          rcases Fault.bind_eq_ok_iff.mp hreply with ⟨⟨c, b''⟩, hchoose, hresult⟩
          obtain ⟨rfl, hid⟩ := Strategy.choose_eq_ok hchoose
          simp only [pure, Except.pure, Except.ok.injEq, Prod.mk.injEq] at hresult
          rcases hresult with ⟨rfl, rfl⟩
          refine ⟨⟨rfl, rfl, policies_setIfInBounds hb hsame _, ?_, ?_⟩, by simp⟩
          · exact hn.afterStatus hlt hremembers (by omega) (by omega)
          · intro c' hc'
            rw [Option.some.injEq] at hc'
            subst hc'
            rw [hid]
            exact ⟨b'', by simp [hlt], hchoose⟩
      | false =>
          simp only [Bool.false_eq_true, if_false] at hreply
          have hnext := hn.afterStatus hlt hremembers le_rfl fun _ => hdone rfl
          obtain ⟨hchooses, hall⟩ := ih hreply hnext
          have hpolicies := policies_setIfInBounds hb hsame (n.firstActive + 1)
          refine ⟨⟨hchooses.store, hchooses.engine, hchooses.policies.trans hpolicies,
            hchooses.remembers, hchooses.strategy⟩, ?_⟩
          intro hnone
          rw [hall hnone]
          dsimp only
          omega

theorem Remembers.decides_of_choose (hn : n.Remembers) (h : n.choose = .ok (none, n')) {x : Var}
    (hb : b ∈ n.policies) (hx : x ∈ b.labels) : n.store.Decides x := by
  unfold choose at h
  rcases Fault.bind_eq_ok_iff.mp h with ⟨_, -, hamong⟩
  obtain ⟨hchooses, hall⟩ := chooseAmong_eq_ok hamong hn
  rw [← hchooses.policies] at hb
  unfold Node.policies at hb
  rcases List.mem_map.mp hb with ⟨b', hmem, rfl⟩
  rw [Strategy.labels_rewound] at hx
  obtain ⟨i, hi⟩ := List.getElem?_of_mem hmem
  rw [Array.getElem?_toList] at hi
  have hsize : n'.branchers.size = n.branchers.size := by
    have hlength := congrArg List.length hchooses.policies
    simpa [Node.policies] using hlength
  have hlt : i < n'.branchers.size := (Array.getElem?_eq_some_iff.mp hi).1
  have hdecides := hchooses.remembers.done i b' (by rw [hall rfl]; omega) hi x hx
  rwa [hchooses.store] at hdecides

theorem Remembers.chooses (hn : n.Remembers) (h : n.choose = .ok (choice, n')) :
    n.Chooses choice n' := by
  unfold choose at h
  rcases Fault.bind_eq_ok_iff.mp h with ⟨_, -, hamong⟩
  exact (chooseAmong_eq_ok hamong hn).1

theorem Chooses.splits {c : Choice} (h : n.Chooses (some c) n') (hs : n.store.Consistent)
    (hsplitting : ∀ b ∈ n.policies, b.IsSplitting ∧ b.Addressable) :
    ∃ b, n'.branchers[c.brancher]? = some b ∧ b.Splits c n'.store := by
  obtain ⟨b, hb, hchoose⟩ := h.strategy c rfl
  have hmem := rewound_mem_policies hb
  rw [h.policies] at hmem
  obtain ⟨hsplit, hfits⟩ := hsplitting _ hmem
  refine ⟨b, hb, ?_⟩
  rw [h.store]
  exact Strategy.splits_of_choose hs ((Strategy.isSplitting_rewound b).mp hsplit)
    ((Strategy.addressable_rewound b).mp hfits) hchoose

end Node

end FiniteDomain
