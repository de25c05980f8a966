import FiniteDomain.Proofs.ArchiveText
import FiniteDomain.Proofs.Resuming
import FiniteDomain.Proofs.Safety
import FiniteDomain.Proofs.Shrinking

/-!
# Restoring

The archive of a choice says nothing about the alternatives: the brancher that restores the choice
counts them again, from the bounds.  Whatever is requested after the choice was made, branchers are
only added, and those that were there change nothing but what they remember.  Restoring does not look
at that, nor at the domains, so the choice is restored as it was made.
-/

namespace FiniteDomain

namespace Choice

variable (c : Choice)

theorem wrapPos_wrapPos (pos : Nat) : wrapPos (wrapPos pos) = wrapPos pos :=
  Nat.mod_mod pos _

theorem wrapPos_le_greatestKey (pos : Nat) : wrapPos pos ≤ Table.greatestKey :=
  Nat.le_of_lt_succ (Nat.mod_lt pos (by decide))

theorem promised_self (hpos : wrapPos c.pos = c.pos) :
    promised c.brancher c.pos c.min c.max c.alternatives = .ok c := by
  unfold promised
  rw [dif_pos c.alternatives_pos, hpos]

end Choice

namespace Strategy

variable {b b' : Strategy} {s : Store} {id : BrancherId} {c : Choice} {pos : Nat} {lo hi : Int}

/-- Being asked, a strategy changes nothing but what it remembers. -/
theorem rewound_of_status {left : Bool} (h : Brancher.status b s = .ok (left, b')) :
    b'.rewound = b.rewound := by
  rw [status_eq] at h
  rcases Fault.bind_eq_ok_iff.mp h with ⟨i, -, hanswer⟩
  rw [← (Prod.mk.inj (Except.ok.inj hanswer)).2]
  exact b.rewound_resumedAt i

@[simp]
theorem restore_rewound (b : Strategy) :
    Brancher.restore b.rewound id pos lo hi = Brancher.restore b id pos lo hi := by
  cases b <;> rfl

section Positions

theorem checkPos_of_lt {size : Nat} (h : pos < size) : Brancher.checkPos id pos size = .ok () :=
  if_pos h

theorem labelling_restore {b : Labelling} (hpos : pos < b.vars.size) :
    Brancher.restore (labelling b) id pos lo hi = .ok (.ok (.binary id pos lo hi)) := by
  change Except.ok (Brancher.checkPos id pos b.vars.size >>= _) = _
  rw [checkPos_of_lt hpos]
  rfl

theorem bisection_restore {b : Bisection} (hpos : pos < b.entries.size) :
    Brancher.restore (bisection b) id pos lo hi = .ok (.ok (.binary id pos lo hi)) := by
  change Except.ok (Brancher.checkPos id pos b.entries.size >>= _) = _
  rw [checkPos_of_lt hpos]
  rfl

/-- A slicing counts the slices again.  Crossed bounds count as one value. -/
theorem slicing_restore {b : Slicing} {item : SlicedItem} (hitem : b.items[pos]? = some item) :
    Brancher.restore (slicing b) id pos lo hi = (do
      let width ← Word.fit (hi - lo)
      let n ← Slicing.count (max width 0) item.width.length
      return .ok (← Choice.promised id pos lo hi n)) := by
  have hpos : pos < b.items.size := (Array.getElem?_eq_some_iff.mp hitem).1
  change b.restore id pos lo hi = _
  unfold Slicing.restore
  rw [checkPos_of_lt hpos]
  dsimp only
  rw [Table.fetch_eq_ok_iff.mpr hitem]
  rfl

end Positions

/-- A choice says where it was made, and which bounds the domain had. -/
theorem parts_of_choiceAt (hs : s.Consistent) (hundecided : b.Undecided s pos)
    (h : b.choiceAt id s pos = .ok c) :
    c.brancher = id ∧ c.pos = Choice.wrapPos pos ∧
      ∃ x, c.min = (s.view x).lb ∧ c.max = (s.view x).ub := by
  cases b with
  | labelling b =>
      obtain ⟨x, hx, hhas, -⟩ := hundecided
      rw [labelling_choiceAt_eq hx hhas] at h
      obtain rfl := Except.ok.inj h
      exact ⟨rfl, rfl, x, rfl, rfl⟩
  | bisection b =>
      obtain ⟨x, need, hx, hhas, -⟩ := hundecided
      rw [bisection_choiceAt_eq hx hhas] at h
      obtain rfl := Except.ok.inj h
      exact ⟨rfl, rfl, x, rfl, rfl⟩
  | slicing b =>
      obtain ⟨item, hitem, hhas, -⟩ := hundecided
      obtain ⟨hid, hpos, hmin, hmax, -⟩ := slicing_of_choiceAt hs hitem hhas h
      exact ⟨hid, hpos, item.position, hmin, hmax⟩
  | caseSplit b =>
      obtain ⟨d, hd, hpromised⟩ := Fault.bind_eq_ok_iff.mp h
      obtain ⟨-, hview⟩ := Store.domain_eq_ok_iff.mp hd
      unfold Choice.promised at hpromised
      split at hpromised
      · obtain rfl := Except.ok.inj hpromised
        refine ⟨rfl, rfl, b.var, ?_, ?_⟩
        · rw [hview]
        · rw [hview]
      · contradiction

/-- What a choice is archived as can be read back. -/
theorem fits_of_choiceAt (hs : s.Consistent) (hid : id ≤ Table.greatestKey)
    (hundecided : b.Undecided s pos) (h : b.choiceAt id s pos = .ok c) : c.archive.Fits := by
  obtain ⟨hbrancher, hpos, x, hmin, hmax⟩ := parts_of_choiceAt hs hundecided h
  have hle := hs.view x
  have hleast := hs.least x
  have hgreatest := hs.greatest x
  simp only [Word.minValue, Word.maxValue] at hleast hgreatest
  refine ⟨?_, ?_, ?_, ?_⟩
  · change c.brancher ≤ Table.greatestKey
    rw [hbrancher]
    exact hid
  · change c.pos ≤ Table.greatestKey
    rw [hpos]
    exact Choice.wrapPos_le_greatestKey pos
  · change Word.least ≤ c.min ∧ c.min ≤ Word.greatest
    rw [hmin]
    simp only [Word.least, Word.greatest]
    omega
  · change Word.least ≤ c.max ∧ c.max ≤ Word.greatest
    rw [hmax]
    simp only [Word.least, Word.greatest]
    omega

/-- A slicing counts as many slices as when it made the choice, for the same item. -/
theorem slicing_restore_choiceAt {b : Slicing} (hs : s.Consistent)
    (hfits : b.items.size ≤ Choice.positions) (hundecided : (slicing b).Undecided s pos)
    (h : (slicing b).choiceAt id s pos = .ok c) :
    Brancher.restore (slicing b) id c.pos c.min c.max = .ok (.ok c) := by
  obtain ⟨item, hitem, hhas, -⟩ := hundecided
  obtain ⟨hid, hpos, hmin, hmax, hcount⟩ := slicing_of_choiceAt hs hitem hhas h
  have hlt := (Array.getElem?_eq_some_iff.mp hitem).1
  have hwrap := Choice.wrapPos_of_lt (hlt.trans_le hfits)
  have hwidth := hs.width_eq_ok item.position
  have hnonneg : 0 ≤ c.max - c.min := by
    rw [hmin, hmax]
    exact sub_nonneg.mpr (hs.view item.position)
  unfold Interval.width at hwidth
  rw [← hmin, ← hmax] at hwidth
  have hself := c.promised_self (by rw [hpos, hwrap, hwrap])
  rw [hid] at hself
  rw [hpos, hwrap] at hself ⊢
  rw [slicing_restore hitem]
  simp only [bind, Except.bind, hwidth, max_eq_left hnonneg, hcount, hself]
  rfl

/-- A strategy restores the choice that it has made. -/
theorem restore_choiceAt (hs : s.Consistent) (hfits : b.Addressable)
    (hundecided : b.Undecided s pos) (h : b.choiceAt id s pos = .ok c) :
    Brancher.restore b id c.pos c.min c.max = .ok (.ok c) := by
  have hlt := hundecided.lt_positions
  have hwrapped := (Choice.wrapPos_le pos).trans_lt hlt
  cases b with
  | labelling b =>
      obtain ⟨x, hx, hhas, -⟩ := hundecided
      rw [labelling_choiceAt_eq hx hhas] at h
      obtain rfl := Except.ok.inj h
      refine (labelling_restore hwrapped).trans ?_
      unfold Choice.binary
      simp only [Choice.wrapPos_wrapPos]
  | bisection b =>
      obtain ⟨x, need, hx, hhas, -⟩ := hundecided
      rw [bisection_choiceAt_eq hx hhas] at h
      obtain rfl := Except.ok.inj h
      refine (bisection_restore hwrapped).trans ?_
      unfold Choice.binary
      simp only [Choice.wrapPos_wrapPos]
  | slicing b => exact slicing_restore_choiceAt hs hfits hundecided h
  | caseSplit b =>
      obtain ⟨rfl, -⟩ := hundecided
      obtain ⟨d, hd, hpromised⟩ := Fault.bind_eq_ok_iff.mp h
      unfold Choice.promised at hpromised
      split at hpromised
      · rename_i hcases
        obtain rfl := Except.ok.inj hpromised
        change (Choice.promised id 0 d.lb d.ub b.cases.size >>= _) = _
        unfold Choice.promised
        rw [dif_pos hcases]
        rfl
      · contradiction

end Strategy

namespace Node

section Policies

variable {P : Type} {n m : Node P Strategy} {choice : Option Choice} {c : Choice}

theorem chooseAmong_policies {count : Nat} (h : n.chooseAmong count = .ok (choice, m)) :
    m.policies = n.policies := by
  -- the induction is on the number of strategies that are still to be asked
  induction count generalizing n with
  | zero =>
      obtain ⟨-, rfl⟩ := Prod.mk.inj (Except.ok.inj h)
      rfl
  | succ count ih =>
      rcases Fault.bind_eq_ok_iff.mp h with ⟨b, hfetch, hask⟩
      rcases Fault.bind_eq_ok_iff.mp hask with ⟨⟨left, b'⟩, hstatus, hreply⟩
      have hb := Table.fetch_eq_ok_iff.mp hfetch
      have hsame := Strategy.rewound_of_status hstatus
      cases left with
      | true =>
          rcases Fault.bind_eq_ok_iff.mp hreply with ⟨⟨c, b''⟩, hchoose, hresult⟩
          obtain ⟨rfl, -⟩ := Strategy.choose_eq_ok hchoose
          obtain ⟨-, rfl⟩ := Prod.mk.inj (Except.ok.inj hresult)
          exact policies_setIfInBounds hb hsame n.firstActive
      | false => exact (ih hreply).trans (policies_setIfInBounds hb hsame (n.firstActive + 1))

theorem choose_policies (h : n.choose = .ok (choice, m)) : m.policies = n.policies := by
  rcases Fault.bind_eq_ok_iff.mp h with ⟨_, -, hamong⟩
  exact chooseAmong_policies hamong

/-- A choice was made by the strategy of its number, at a position that needs a decision. -/
theorem exists_choiceAt (hs : n.store.Consistent) (hrecalls : n.Recalls)
    (hchoose : n.choose = .ok (some c, m)) :
    ∃ b pos, n.branchers[c.brancher]? = some b ∧ b.Undecided n.store pos ∧
      b.choiceAt c.brancher n.store pos = .ok c := by
  have hscan := hrecalls.choose_eq_scan hs.failure
  rw [hchoose] at hscan
  rcases (answer_of_scan hs hscan.symm).2 c rfl with
    ⟨passed, b, rest, pos, hsplit, -, hbest, hchoice⟩
  have hnumber := (Strategy.parts_of_choiceAt hs hbest.undecided hchoice).1
  have hb : n.branchers[passed.length]? = some b := by
    rw [← Array.getElem?_toList, hsplit, List.getElem?_append_right le_rfl, Nat.sub_self]
    rfl
  rw [← hnumber] at hb hchoice
  exact ⟨b, pos, hb, hbest.undecided, hchoice⟩

theorem getElem?_policies (n : Node P Strategy) (i : Nat) :
    n.policies[i]? = n.branchers[i]?.map Strategy.rewound := by
  unfold policies
  rw [List.getElem?_map, Array.getElem?_toList]

/-- Restoring looks at the policy alone of the strategy that the archive names. -/
theorem restore_of_policy {a : Archive} {b : Strategy}
    (hb : n.policies[a.brancher]? = some b.rewound) :
    n.restore a = Brancher.restore b a.brancher a.pos a.min a.max := by
  rw [getElem?_policies, Option.map_eq_some_iff] at hb
  rcases hb with ⟨b', hb', hsame⟩
  unfold restore
  rw [hb', ← Strategy.restore_rewound b, ← hsame, Strategy.restore_rewound]

variable [Propagator P]

theorem Request.policies (h : n.Request m) : n.policies <+: m.policies := by
  rcases h.branchers with ⟨hbranchers, -⟩ | ⟨b, -, rfl⟩ | ⟨choice, hchoose⟩
  · unfold Node.policies
    rw [hbranchers]
  · unfold Node.policies
    rw [Array.toList_push, List.map_append]
    exact List.prefix_append _ _
  · rw [choose_policies hchoose]

theorem Leads.policies (h : n.Leads m) : n.policies <+: m.policies := by
  induction h with
  | refl => exact List.prefix_rfl
  | tail _ hrequest ih => exact ih.trans hrequest.policies

theorem Leads.policy_kept {i : Nat} {b : Strategy} (h : n.Leads m)
    (hb : n.branchers[i]? = some b) : m.policies[i]? = some b.rewound := by
  have hpolicy : n.policies[i]? = some b.rewound := by
    rw [getElem?_policies, hb]
    rfl
  rcases h.policies with ⟨added, hadded⟩
  rw [← hadded, List.getElem?_append_left (List.getElem?_eq_some_iff.mp hpolicy).1]
  exact hpolicy

end Policies

section Archives

variable {P : Type} [Propagator P] {n n' m : Node P Strategy} {c : Choice}

/-- A choice can be archived as a text, read back, and restored wherever requests lead to from the node
that has made it: copies of the node, and nodes that are failed, included.  It is the same choice
again, so it has as many alternatives, and they do what those of the first one do. -/
theorem restore_archive (hnarrows : ∀ p : P, (Propagator.propagate p).Narrows)
    (hn : Node.empty.Leads n) (hfine : n.store.failure = none)
    (hfits : ∀ b ∈ n.branchers, b.Addressable) (hkeys : n.branchers.size ≤ Table.greatestKey + 1)
    (hchoose : n.choose = .ok (some c, n')) (hm : n.Leads m) :
    ∃ a c', Archive.read c.archive.render = some a ∧ m.restore a = .ok (.ok c') ∧ c' = c ∧
      ∀ alternative, m.commit c' alternative = m.commit c alternative := by
  rcases hn.recalls hnarrows hfine with ⟨hconsistent, hrecalls⟩
  rcases exists_choiceAt hconsistent hrecalls hchoose with ⟨b, pos, hb, hundecided, hchoice⟩
  have hnumber : c.brancher ≤ Table.greatestKey :=
    Nat.le_of_lt_succ ((Array.getElem?_eq_some_iff.mp hb).1.trans_le hkeys)
  have hread := Archive.read_render (Strategy.fits_of_choiceAt hconsistent hnumber hundecided hchoice)
  have hrestore : m.restore c.archive = .ok (.ok c) := by
    have haddressable := hfits b (Array.mem_of_getElem? hb)
    rw [restore_of_policy (hm.policy_kept hb)]
    exact Strategy.restore_choiceAt hconsistent haddressable hundecided hchoice
  exact ⟨c.archive, c, hread, hrestore, rfl, fun _ => rfl⟩

end Archives

end Node

theorem Model.Assembled.leads {m : Model} (hm : m.Assembled) : Node.empty.Leads m := by
  induction hm with
  | empty => exact .refl
  | newVar _ lb ub ih => exact ih.tail (.newVar lb ub)
  | narrow _ h ih => exact ih.tail (.narrow h)
  | post _ p ih => exact ih.tail (.post p.constraint)
  | branch _ b hfresh ih => exact ih.tail (.branch b hfresh)
  | choose _ h ih => exact ih.tail (.choose h)
  | commit _ h ih => exact ih.tail (.commit h)
  | propagate _ _ h ih => exact ih.tail (.propagate h)

/-- The first choice in the strip is among the three slices of the first item's position.  It is
restored from its archive when the second slice has been committed and another variable is there. -/
theorem Node.restore_archive_strip :
    ∃ c n m, Model.strip.choose = .ok (some c, n) ∧ n.commit c 1 = .ok (.ok (), m) ∧
      c.alternatives = 3 ∧ ∃ a c', Archive.read c.archive.render = some a ∧
        (m.newVar 0 9).2.restore a = .ok (.ok c') ∧ c' = c ∧
          ∀ alternative, (m.newVar 0 9).2.commit c' alternative =
            (m.newVar 0 9).2.commit c alternative := by
  obtain ⟨c, n, m, hchoose, hcommit, halternatives⟩ :
      ∃ c n m, Model.strip.choose = .ok (some c, n) ∧ n.commit c 1 = .ok (.ok (), m) ∧
        c.alternatives = 3 :=
    ⟨_, _, _, rfl, rfl, rfl⟩
  have hm : Model.strip.Leads (m.newVar 0 9).2 :=
    ((Leads.tail .refl (.choose hchoose)).tail (.commit hcommit)).tail (.newVar 0 9)
  exact ⟨c, n, m, hchoose, hcommit, halternatives,
    restore_archive Constraint.narrows_propagate Model.assembled_strip.leads rfl (by decide)
      (by decide) hchoose hm⟩

end FiniteDomain
