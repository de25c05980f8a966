import FiniteDomain.Proofs.Cursors
import FiniteDomain.Proofs.NarrowingUpdates
import FiniteDomain.Proofs.Serving

/-!
# Resuming

A node asks its branchers from the first active one on, and each of them goes on from its cursor.
Whatever was requested before, the choice is the one that a scan from the very beginning makes: the
branchers before the first active one have nothing left to decide, and neither have the positions
before a cursor.  Both stay so in all nodes below, copies included, since domains only shrink.

What a scan from the beginning finds depends on the domains and on the policies alone.  It is the best
undecided position of the first strategy that has one.
-/

namespace FiniteDomain

namespace Strategy

/-- A position of the strategy needs a decision. -/
def HasDecision (s : Store) (b : Strategy) : Prop :=
  ∃ pos, b.Undecided s pos

/-- What a list of strategies chooses, asked one after the other under successive numbers. -/
def scan (s : Store) : BrancherId → List Strategy → Except Fault (Option Choice)
  | _, [] => return none
  | id, b :: rest => do
    let (decisionLeft, b) ← Brancher.status b s
    if decisionLeft then
      let (c, _) ← Brancher.choose b id s
      return some c
    else
      scan s (id + 1) rest

variable {b b' : Strategy} {s : Store} {id : BrancherId} {bs : List Strategy} {pos : Nat}

theorem IsBest.congr (h : b.IsBest s pos)
    (hundecided : ∀ other, b'.Undecided s other ↔ b.Undecided s other)
    (hprefers : ∀ i j, b'.Prefers s i j ↔ b.Prefers s i j) : b'.IsBest s pos where
  undecided := (hundecided pos).mpr h.undecided
  prefers other hother := (hprefers pos other).mpr (h.prefers other ((hundecided other).mp hother))
  le other hother hgood :=
    h.le other ((hundecided other).mp hother) ((hprefers other pos).mp hgood)

section Rewound

variable (b)

@[simp]
theorem undecided_rewound : b.rewound.Undecided s pos ↔ b.Undecided s pos := by
  cases b <;> rfl

@[simp]
theorem choiceAt_rewound : b.rewound.choiceAt id s pos = b.choiceAt id s pos := by
  cases b <;> rfl

@[simp]
theorem hasDecision_rewound : b.rewound.HasDecision s ↔ b.HasDecision s := by
  unfold HasDecision
  simp only [undecided_rewound]

@[simp]
theorem isBest_rewound : b.rewound.IsBest s pos ↔ b.IsBest s pos := by
  have hprefers : ∀ i j, b.rewound.Prefers s i j ↔ b.Prefers s i j := by
    intro i j
    cases b <;> rfl
  constructor
  · intro h
    exact h.congr (fun _ => (undecided_rewound b).symm) fun i j => (hprefers i j).symm
  · intro h
    exact h.congr (fun _ => undecided_rewound b) hprefers

@[simp]
theorem isDone_rewound : b.rewound.IsDone s ↔ b.IsDone s := by
  cases b <;> rfl

@[simp]
theorem rewound_rewound : b.rewound.rewound = b.rewound := by
  cases b <;> rfl

end Rewound

theorem IsDone.not_hasDecision (h : b.IsDone s) (hs : s.Consistent) : ¬ b.HasDecision s := by
  intro hleft
  obtain ⟨pos, hundecided⟩ := hleft
  exact not_undecided hs (h pos hundecided.lt_positions) hundecided

/-- What a strategy remembers includes that labels are decided. -/
theorem Recalls.remembers (h : b.Recalls s) : b.Remembers s := by
  cases b with
  | labelling b =>
      intro pos hpos x hx
      exact decides_of_undecided (h.decided pos hpos) hx
  | bisection b => trivial
  | slicing b => trivial
  | caseSplit b => trivial

theorem IsDone.decides (h : b.IsDone s) : ∀ x ∈ b.labels, s.Decides x := by
  intro x hx
  cases b with
  | labelling b =>
      rcases Array.mem_iff_getElem?.mp (Array.mem_toList_iff.mp hx) with ⟨pos, hpos⟩
      exact decides_of_undecided (h pos (Array.getElem?_eq_some_iff.mp hpos).1) hpos
  | bisection b => contradiction
  | slicing b => contradiction
  | caseSplit b => contradiction

theorem Recalls.status_of_isDone (h : b.Recalls s) (hdone : b.IsDone s) :
    Brancher.status b s = .ok (false, b.resumedAt b.positions) := by
  have hdecided : ∀ pos, b.cursor ≤ pos → pos < b.cursor + (b.positions - b.cursor) →
      b.isUndecided s pos = .ok false := by
    intro pos hcursor hpos
    exact hdone pos (by omega)
  have hscan := Brancher.firstUndecided_add hdecided 0
  rw [Nat.add_zero, Nat.add_sub_cancel' h.cursor_le] at hscan
  rw [status_eq, hscan]
  simp only [Brancher.firstUndecided, bind, Except.bind, pure, Except.pure, lt_irrefl, decide_false]

/-- Strategies that are done can be left out. -/
theorem scan_append (h : ∀ b ∈ bs, b.Recalls s ∧ b.IsDone s) (rest : List Strategy) :
    scan s id (bs ++ rest) = scan s (id + bs.length) rest := by
  induction bs generalizing id with
  | nil => rfl
  | cons b bs ih =>
      have hb := h b List.mem_cons_self
      have hrest : scan s (id + 1) (bs ++ rest) = scan s (id + 1 + bs.length) rest :=
        ih fun other hother => h other (List.mem_cons_of_mem b hother)
      rw [List.cons_append, scan, hb.1.status_of_isDone hb.2, List.length_cons]
      change scan s (id + 1) (bs ++ rest) = _
      rw [hrest, Nat.add_assoc, Nat.add_comm 1]

/-- Without a decision left nothing is chosen.  Otherwise the first strategy that has one chooses at
its best position. -/
theorem scan_eq_ok {answer : Option Choice} (hs : s.Consistent) (hbs : ∀ b ∈ bs, b.Recalls s)
    (h : scan s id bs = .ok answer) :
    (answer = none → ∀ b ∈ bs, ¬ b.HasDecision s) ∧
      ∀ c, answer = some c → ∃ passed b rest pos, bs = passed ++ b :: rest ∧
        (∀ b' ∈ passed, ¬ b'.HasDecision s) ∧ b.IsBest s pos ∧
          b.choiceAt (id + passed.length) s pos = .ok c := by
  induction bs generalizing id with
  | nil =>
      obtain rfl := Except.ok.inj h
      constructor
      · intro _ b hb
        contradiction
      · intro c hc
        contradiction
  | cons b bs ih =>
      rcases Fault.bind_eq_ok_iff.mp h with ⟨⟨left, b'⟩, hstatus, hreply⟩
      obtain ⟨hb', hsame, hdone, hleft⟩ := (hbs b List.mem_cons_self).afterStatus hstatus
      cases left with
      | true =>
          rcases Fault.bind_eq_ok_iff.mp hreply with ⟨⟨c, b''⟩, hchoose, hanswer⟩
          obtain rfl := Except.ok.inj hanswer
          obtain ⟨pos, hbest, hchoice⟩ := hb'.isBest_of_choose hs (hleft rfl) hchoose
          rw [← isBest_rewound, hsame, isBest_rewound] at hbest
          rw [← choiceAt_rewound, hsame, choiceAt_rewound] at hchoice
          constructor
          · intro hnone
            contradiction
          · intro c' hc'
            obtain rfl := Option.some.inj hc'
            refine ⟨[], b, bs, pos, rfl, ?_, hbest, hchoice⟩
            intro other hother
            contradiction
      | false =>
          have hnot := (hdone rfl).not_hasDecision hs
          rw [← hasDecision_rewound, hsame, hasDecision_rewound] at hnot
          obtain ⟨hall, hfirst⟩ := ih (fun other hother => hbs other (List.mem_cons_of_mem b hother))
            hreply
          constructor
          · intro hnone
            exact List.forall_mem_cons.mpr ⟨hnot, hall hnone⟩
          · intro c hc
            obtain ⟨passed, chosen, rest, pos, hsplit, hpassed, hbest, hchoice⟩ := hfirst c hc
            refine ⟨b :: passed, chosen, rest, pos, ?_, List.forall_mem_cons.mpr ⟨hnot, hpassed⟩,
              hbest, ?_⟩
            · rw [hsplit]
              rfl
            · rw [List.length_cons, Nat.add_comm passed.length, ← Nat.add_assoc]
              exact hchoice

end Strategy

namespace Node

section Memory

variable {P : Type} {n m : Node P Strategy} {b b' : Strategy} {choice : Option Choice}

/-- What the node and its strategies remember is true: positions that they have passed are decided,
and so are all positions of the strategies before the first active one. -/
structure Recalls (n : Node P Strategy) : Prop where
  active : n.firstActive ≤ n.branchers.size
  strategies : ∀ (i : Nat) (b : Strategy), n.branchers[i]? = some b → b.Recalls n.store
  done : ∀ (i : Nat) (b : Strategy), i < n.firstActive → n.branchers[i]? = some b →
    b.IsDone n.store

/-- The node as it would be if no strategy had been asked yet. -/
def rewound (n : Node P Strategy) : Node P Strategy :=
  { n with branchers := n.branchers.map Strategy.rewound, firstActive := 0 }

@[simp]
theorem policies_rewound (n : Node P Strategy) : n.rewound.policies = n.policies := by
  unfold rewound policies
  rw [Array.toList_map, List.map_map]
  congr 1
  funext b
  exact b.rewound_rewound

theorem recalls_rewound (n : Node P Strategy) : n.rewound.Recalls where
  active := Nat.zero_le _
  strategies i b hb := by
    rw [rewound, Array.getElem?_map, Option.map_eq_some_iff] at hb
    obtain ⟨b', -, rfl⟩ := hb
    exact Strategy.recalls_of_isFresh b'.rewound_rewound
  done i b hi hb := absurd hi (Nat.not_lt_zero i)

/-- Domains that shrink make no difference. -/
theorem Recalls.refines (h : n.Recalls) {t : Store} (hts : t.Refines n.store)
    (hbranchers : m.branchers = n.branchers) (hactive : m.firstActive = n.firstActive)
    (hstore : m.store = t) : m.Recalls where
  active := by
    rw [hbranchers, hactive]
    exact h.active
  strategies i b hb := by
    rw [hbranchers] at hb
    rw [hstore]
    exact (h.strategies i b hb).refines hts
  done i b hi hb := by
    rw [hbranchers] at hb
    rw [hactive] at hi
    rw [hstore]
    exact (h.done i b hi hb).refines hts

theorem Recalls.remembers (h : n.Recalls) : n.Remembers where
  active := h.active
  strategies i b hb := (h.strategies i b hb).remembers
  done i b hi hb := (h.done i b hi hb).decides

/-- The first active strategy has been asked, and is passed over only when it is done. -/
theorem Recalls.afterStatus (h : n.Recalls) (hlt : n.firstActive < n.branchers.size)
    (hb : b.Recalls n.store) {firstActive : Nat} (hnext : firstActive ≤ n.firstActive + 1)
    (hdone : n.firstActive < firstActive → b.IsDone n.store) :
    ({ n with
      branchers := n.branchers.setIfInBounds n.firstActive b
      firstActive := firstActive } : Node P Strategy).Recalls where
  active := by
    rw [Array.size_setIfInBounds]
    exact hnext.trans hlt
  strategies := forall_setIfInBounds (fun i other _ => h.strategies i other) hb
  done i other hi hother := by
    have hall := forall_setIfInBounds (Q := fun i other => i < firstActive → other.IsDone n.store)
      (fun i other hne hother hi => h.done i other (by omega) hother) hdone
    exact hall i other hother hi

theorem chooseAmong_recalls {count : Nat} (h : n.chooseAmong count = .ok (choice, m))
    (hn : n.Recalls) : m.Recalls := by
  -- the induction is on the number of strategies that are still to be asked
  induction count generalizing n with
  | zero =>
      obtain ⟨-, rfl⟩ := Prod.mk.inj (Except.ok.inj h)
      exact hn
  | succ count ih =>
      rcases Fault.bind_eq_ok_iff.mp h with ⟨b, hfetch, hask⟩
      rcases Fault.bind_eq_ok_iff.mp hask with ⟨⟨left, b'⟩, hstatus, hreply⟩
      have hb := Table.fetch_eq_ok_iff.mp hfetch
      have hlt := (Array.getElem?_eq_some_iff.mp hb).1
      obtain ⟨hb', -, hdone, -⟩ := (hn.strategies _ b hb).afterStatus hstatus
      cases left with
      | true =>
          rcases Fault.bind_eq_ok_iff.mp hreply with ⟨⟨c, b''⟩, hchoose, hresult⟩
          obtain ⟨rfl, -⟩ := Strategy.choose_eq_ok hchoose
          obtain ⟨-, rfl⟩ := Prod.mk.inj (Except.ok.inj hresult)
          exact hn.afterStatus hlt hb' (Nat.le_succ _) fun hless => absurd hless (lt_irrefl _)
      | false => exact ih hreply (hn.afterStatus hlt hb' le_rfl fun _ => hdone rfl)

/-- Asking on from the first active strategy has the outcome of a scan of these strategies, as if they
had not been asked before. -/
theorem chooseAmong_eq_scan (hn : n.Recalls) {count : Nat}
    (hcount : n.firstActive + count = n.branchers.size) :
    (n.chooseAmong count).map Prod.fst =
      Strategy.scan n.store n.firstActive (n.policies.drop n.firstActive) := by
  -- the induction is on the number of strategies that are still to be asked
  induction count generalizing n with
  | zero =>
      have hnil : n.policies.drop n.firstActive = [] := by
        apply List.drop_of_length_le
        unfold policies
        rw [List.length_map, Array.length_toList]
        exact hcount.ge
      rw [hnil]
      rfl
  | succ count ih =>
      have hlt : n.firstActive < n.branchers.size := by omega
      have hb := Array.getElem?_eq_getElem hlt
      have hpolicies : n.policies.drop n.firstActive =
          n.branchers[n.firstActive].rewound :: n.policies.drop (n.firstActive + 1) := by
        have hlength : n.firstActive < n.policies.length := by
          unfold policies
          rw [List.length_map, Array.length_toList]
          exact hlt
        rw [List.drop_eq_getElem_cons hlength]
        simp only [policies, List.getElem_map, Array.getElem_toList]
      have hrecalls := hn.strategies _ _ hb
      rw [hpolicies, chooseAmong, Strategy.scan, Table.fetch_of_lt hlt,
        Strategy.status_rewound hrecalls]
      change Except.map Prod.fst (Brancher.status n.branchers[n.firstActive] n.store >>= _) = _
      cases hstatus : Brancher.status n.branchers[n.firstActive] n.store with
      | error f => rfl
      | ok answer =>
          rcases answer with ⟨left, b'⟩
          obtain ⟨hb', hsame, hdone, -⟩ := hrecalls.afterStatus hstatus
          cases left with
          | true =>
              change Except.map Prod.fst (Brancher.choose b' n.firstActive n.store >>= _) =
                Brancher.choose b' n.firstActive n.store >>= _
              cases Brancher.choose b' n.firstActive n.store with
              | error f => rfl
              | ok r => rfl
          | false =>
              have hnext := hn.afterStatus hlt hb' le_rfl fun _ => hdone rfl
              have hrest := ih hnext (by
                rw [Array.size_setIfInBounds]
                dsimp only
                omega)
              rw [policies_setIfInBounds hb hsame] at hrest
              exact hrest

/-- A choice is what a scan from the beginning finds. -/
theorem Recalls.choose_eq_scan (hn : n.Recalls) (hfine : n.store.failure = none) :
    n.choose.map Prod.fst = Strategy.scan n.store 0 n.policies := by
  have hcheck : Fault.check (!n.isFailed) = .ok () := by
    unfold isFailed Store.isFailed
    rw [hfine]
    rfl
  have hactive := hn.active
  have hdone : ∀ b ∈ n.policies.take n.firstActive,
      b.Recalls n.store ∧ b.IsDone n.store := by
    intro b hb
    obtain ⟨i, hi⟩ := List.getElem?_of_mem hb
    rw [List.getElem?_take] at hi
    split at hi
    · rename_i hless
      unfold policies at hi
      rw [List.getElem?_map, Array.getElem?_toList, Option.map_eq_some_iff] at hi
      obtain ⟨b', hb', rfl⟩ := hi
      exact ⟨Strategy.recalls_of_isFresh b'.rewound_rewound,
        (Strategy.isDone_rewound b').mpr (hn.done i b' hless hb')⟩
    · contradiction
  have hlength : (n.policies.take n.firstActive).length = n.firstActive := by
    unfold policies
    rw [List.length_take, List.length_map, Array.length_toList]
    omega
  rw [← List.take_append_drop n.firstActive n.policies, Strategy.scan_append hdone, hlength,
    Nat.zero_add, ← chooseAmong_eq_scan hn (Nat.add_sub_cancel' hactive), choose, hcheck]
  rfl

/-- The answer of a scan, as it concerns the strategies whose cursors have moved. -/
theorem answer_of_scan (hs : n.store.Consistent)
    (h : Strategy.scan n.store 0 n.policies = .ok choice) :
    (choice = none ↔ ∀ b ∈ n.branchers.toList, ¬ b.HasDecision n.store) ∧
      ∀ c, choice = some c → ∃ passed b rest pos, n.branchers.toList = passed ++ b :: rest ∧
        (∀ b' ∈ passed, ¬ b'.HasDecision n.store) ∧ b.IsBest n.store pos ∧
          b.choiceAt passed.length n.store pos = .ok c := by
  have hfresh : ∀ b ∈ n.policies, b.Recalls n.store := by
    intro b hb
    obtain ⟨b', -, rfl⟩ := List.mem_map.mp hb
    exact Strategy.recalls_of_isFresh b'.rewound_rewound
  obtain ⟨hnone, hsome⟩ := Strategy.scan_eq_ok hs hfresh h
  have hchosen : ∀ c, choice = some c → ∃ passed b rest pos,
      n.branchers.toList = passed ++ b :: rest ∧ (∀ b' ∈ passed, ¬ b'.HasDecision n.store) ∧
        b.IsBest n.store pos ∧ b.choiceAt passed.length n.store pos = .ok c := by
    intro c hc
    obtain ⟨passed, b, rest, pos, hsplit, hpassed, hbest, hchoice⟩ := hsome c hc
    obtain ⟨passed', tail, hbranchers, rfl, htail⟩ := List.map_eq_append_iff.mp hsplit
    obtain ⟨b', rest', rfl, rfl, rfl⟩ := List.map_eq_cons_iff.mp htail
    rw [Strategy.isBest_rewound] at hbest
    rw [Strategy.choiceAt_rewound, List.length_map, Nat.zero_add] at hchoice
    refine ⟨passed', b', rest', pos, hbranchers, ?_, hbest, hchoice⟩
    intro other hother
    rw [← Strategy.hasDecision_rewound]
    exact hpassed _ (List.mem_map_of_mem hother)
  refine ⟨⟨?_, ?_⟩, hchosen⟩
  · intro heq b hb
    rw [← Strategy.hasDecision_rewound]
    exact hnone heq _ (List.mem_map_of_mem hb)
  · intro hall
    cases choice with
    | none => rfl
    | some c =>
        obtain ⟨passed, b, rest, pos, hsplit, -, hbest, -⟩ := hchosen c rfl
        have hb : b ∈ n.branchers.toList := by
          rw [hsplit]
          exact List.mem_append_right passed List.mem_cons_self
        exact absurd ⟨pos, hbest.undecided⟩ (hall b hb)

end Memory

section Requests

variable {P : Type} [Propagator P] {n m : Node P Strategy}

/-- What a request does to the strategies: nothing at all, or it adds one, or it asks them. -/
theorem Request.branchers (h : n.Request m) :
    (m.branchers = n.branchers ∧ m.firstActive = n.firstActive) ∨
      (∃ b : Strategy, b.IsFresh ∧ m = { n with branchers := n.branchers.push b }) ∨
        ∃ choice, n.choose = .ok (choice, m) := by
  cases h with
  | newVar lb ub => exact Or.inl ⟨rfl, rfl⟩
  | narrow h =>
      rw [(update_eq_ok h).2]
      exact Or.inl ⟨rfl, rfl⟩
  | post p =>
      unfold Node.post
      split
      · exact Or.inl ⟨rfl, rfl⟩
      · exact Or.inl ⟨rfl, rfl⟩
  | branch b hfresh =>
      unfold Node.branch
      split
      · exact Or.inl ⟨rfl, rfl⟩
      · exact Or.inr (Or.inl ⟨b, hfresh, rfl⟩)
  | choose h => exact Or.inr (Or.inr ⟨_, h⟩)
  | commit h =>
      obtain ⟨b, -, -, hm⟩ := commit_eq_update h
      rw [hm]
      exact Or.inl ⟨rfl, rfl⟩
  | propagate h =>
      obtain ⟨r, -, -, -, hm⟩ := propagate_eq_ok h
      rw [hm]
      exact Or.inl ⟨rfl, rfl⟩

/-- As long as a node does not fail, its domains get smaller by requests, and are never empty. -/
theorem Request.refines (hnarrows : ∀ p : P, (Propagator.propagate p).Narrows)
    (h : n.Request m) (hn : n.store.Consistent) (hm : m.store.failure = none) :
    m.store.Refines n.store := by
  have hconsistent := h.consistent hnarrows hn hm
  rcases h.store hnarrows with ⟨lb, ub, hstore⟩ | hshrinks
  · rcases n.store.newVar_cases lb ub with ⟨-, hfailed⟩ | ⟨-, heq⟩
    · rw [hstore] at hm
      exact absurd hm hfailed
    · rw [heq] at hstore
      intro x hx
      have hle := hconsistent.view x
      rw [hstore] at hle ⊢
      refine ⟨Store.has_push.mpr (Or.inl hx), ?_, hle⟩
      rw [Store.view_push_of_has hx]
  · exact (Store.Below.of_shrinks hshrinks).refines hconsistent.view

/-- What a node remembers stays true, whatever is requested. -/
theorem Request.recalls (hnarrows : ∀ p : P, (Propagator.propagate p).Narrows)
    (h : n.Request m) (hn : n.store.Consistent) (hrecalls : n.Recalls)
    (hm : m.store.failure = none) : m.Recalls := by
  have hrefines := h.refines hnarrows hn hm
  rcases h.branchers with ⟨hbranchers, hactive⟩ | ⟨b, hfresh, rfl⟩ | ⟨choice, hchoose⟩
  · exact hrecalls.refines hrefines hbranchers hactive rfl
  · have hold := hrecalls.active
    refine ⟨?_, ?_, ?_⟩
    · rw [Array.size_push]
      exact Nat.le_succ_of_le hold
    · intro i other hother
      rw [Array.getElem?_push] at hother
      split at hother
      · obtain rfl := Option.some.inj hother
        exact Strategy.recalls_of_isFresh hfresh
      · exact hrecalls.strategies i other hother
    · intro i other hi hother
      dsimp only at hi
      rw [Array.getElem?_push, if_neg (by omega)] at hother
      exact hrecalls.done i other hi hother
  · rcases Fault.bind_eq_ok_iff.mp hchoose with ⟨_, -, hamong⟩
    exact chooseAmong_recalls hamong hrecalls

/-- In every node that is made by requests, and has not failed, what is remembered is true. -/
theorem Leads.recalls (hnarrows : ∀ p : P, (Propagator.propagate p).Narrows)
    (h : Node.empty.Leads n) (hfine : n.store.failure = none) :
    n.store.Consistent ∧ n.Recalls := by
  induction h with
  | refl =>
      refine ⟨Model.sound_empty.consistent, Nat.zero_le _, ?_, ?_⟩
      · intro i b hb
        contradiction
      · intro i b hi
        contradiction
  | tail _ hrequest ih =>
      obtain ⟨hconsistent, hrecalls⟩ := ih (hrequest.failure_eq_none hnarrows hfine)
      exact ⟨hrequest.consistent hnarrows hconsistent hfine,
        hrequest.recalls hnarrows hconsistent hrecalls hfine⟩

/-- Cursors never change a decision.  A node that has not failed makes the choice that it would make
if all cursors were set back; it makes one, or says that there is none, if the variables of its
branchers exist.  There is none exactly if no brancher has a decision left.  Otherwise the first
brancher that has one chooses, at the best of its undecided positions. -/
theorem choose_resumes (hnarrows : ∀ p : P, (Propagator.propagate p).Narrows)
    (hn : Node.empty.Leads n) (hfine : n.store.failure = none) :
    n.choose.map Prod.fst = n.rewound.choose.map Prod.fst ∧
      (n.Knows → ∃ r, n.choose = .ok r) ∧
      ∀ choice m, n.choose = .ok (choice, m) →
        (choice = none ↔ ∀ b ∈ n.branchers.toList, ¬ b.HasDecision n.store) ∧
        ∀ c, choice = some c → ∃ passed b rest pos, n.branchers.toList = passed ++ b :: rest ∧
          (∀ b' ∈ passed, ¬ b'.HasDecision n.store) ∧ b.IsBest n.store pos ∧
            b.choiceAt passed.length n.store pos = .ok c := by
  obtain ⟨hconsistent, hrecalls⟩ := hn.recalls hnarrows hfine
  have hscan := hrecalls.choose_eq_scan hfine
  refine ⟨?_, ?_, ?_⟩
  · rw [hscan, n.recalls_rewound.choose_eq_scan hfine, policies_rewound]
    rfl
  · intro hknows
    exact exists_choose hrecalls.remembers hconsistent hknows
  · intro choice m hchoose
    rw [hchoose] at hscan
    exact answer_of_scan hconsistent hscan.symm

end Requests

/-- Once the first value of the chain is 0, the labelling goes on from the second variable, and
chooses what it would choose from the start. -/
theorem choose_resumes_chain :
    ∃ c m₁ m₂ events m₃ c' n, Model.chain.choose = .ok (some c, m₁) ∧
      m₁.commit c 0 = .ok (.ok (), m₂) ∧ m₂.propagate = .ok (none, events, m₃) ∧
      m₃.choose = .ok (some c', n) ∧ n.branchers.toList.map Strategy.cursor = [1] ∧
      n.choose.map Prod.fst = n.rewound.choose.map Prod.fst := by
  obtain ⟨c, m₁, m₂, events, m₃, c', n, hfirst, hcommit, hpropagate, hsecond, hcursor, hfine⟩ :
      ∃ c m₁ m₂ events m₃ c' n, Model.chain.choose = .ok (some c, m₁) ∧
        m₁.commit c 0 = .ok (.ok (), m₂) ∧ m₂.propagate = .ok (none, events, m₃) ∧
        m₃.choose = .ok (some c', n) ∧ n.branchers.toList.map Strategy.cursor = [1] ∧
        n.store.failure = none :=
    ⟨_, _, _, _, _, _, _, rfl, rfl, rfl, rfl, rfl, rfl⟩
  have hn := (((Model.reachable_chain.leads.tail (.choose hfirst)).tail (.commit hcommit)).tail
    (.propagate hpropagate)).tail (.choose hsecond)
  have hresumes := choose_resumes Constraint.narrows_propagate hn hfine
  exact ⟨c, m₁, m₂, events, m₃, c', n, hfirst, hcommit, hpropagate, hsecond, hcursor, hresumes.1⟩

end Node

end FiniteDomain
