import FiniteDomain.Proofs.Constraint.Shift
import FiniteDomain.Proofs.Filtering

/-!
# Pruning by non-overlap

For a pair of rectangles, the bounds of a view leave some of the four sides possible.  A view is
closed for the pair when one side at least is possible and, if it is the only one, its two variables
are shifted.  Smaller views leave fewer sides, so what a side that is the last one removes can be in
no closed view.

A sweep that changes nothing has found every pair closed, and every other sweep lowers the weight of
the store.  The sweeps of a run therefore end, within the fuel that they are given, in a closed view.

The propagator goes through a table of sides and a list of pairs.  The four sides are the four ways in
which two rectangles can be apart, and the pairs are all two rectangles of the constraint, so that the
values in closed views are those that satisfy it.
-/

namespace FiniteDomain

namespace Side

/-- The variable that is to come first. -/
def before (side : Side) (i j : Rectangle) : Var :=
  (side.terms i j).1

/-- The least distance between the two variables. -/
def gap (side : Side) (i j : Rectangle) : Int :=
  (side.terms i j).2.1.length

/-- The variable that is to come second. -/
def after (side : Side) (i j : Rectangle) : Var :=
  (side.terms i j).2.2

/-- The bounds leave values for which `j` is on this side of `i`. -/
def Possible (side : Side) (i j : Rectangle) (V : View) : Prop :=
  (V (side.before i j)).lb + side.gap i j ≤ (V (side.after i j)).ub

/-- All values left have `j` on this side of `i`. -/
def Apart (side : Side) (i j : Rectangle) (V : View) : Prop :=
  (V (side.before i j)).ub + side.gap i j ≤ (V (side.after i j)).lb

instance (side : Side) (i j : Rectangle) (V : View) : Decidable (side.Possible i j V) :=
  inferInstanceAs (Decidable (_ ≤ _))

instance (side : Side) (i j : Rectangle) (V : View) : Decidable (side.Apart i j V) :=
  inferInstanceAs (Decidable (_ ≤ _))

/-- The sides that the bounds leave possible. -/
def remaining (i j : Rectangle) (V : View) : List Side :=
  all.filter fun side => side.Possible i j V

variable {side : Side} {i j : Rectangle} {V W : View} {s : Store}

theorem mem_all (side : Side) : side ∈ all := by
  cases side <;> decide

theorem mem_remaining : side ∈ remaining i j V ↔ side.Possible i j V := by
  unfold remaining
  simp [mem_all]

/-- Two rectangles are apart if the second one is on some side of the first one. -/
theorem exists_possible_iff {value : Var → Int} :
    (∃ side : Side, side.Possible i j (View.ofValues value)) ↔ i.IsApartFrom j value := by
  unfold Rectangle.IsApartFrom
  constructor
  · rintro ⟨side, hside⟩
    cases side with
    | left => exact Or.inr (Or.inl hside)
    | right => exact Or.inl hside
    | above => exact Or.inr (Or.inr (Or.inr hside))
    | below => exact Or.inr (Or.inr (Or.inl hside))
  · rintro (hright | hleft | hbelow | habove)
    · exact ⟨.right, hright⟩
    · exact ⟨.left, hleft⟩
    · exact ⟨.below, hbelow⟩
    · exact ⟨.above, habove⟩

theorem before_mem (side : Side) (i j : Rectangle) :
    side.before i j ∈ [i.x, i.y] ++ [j.x, j.y] := by
  cases side <;> simp [before, terms]

theorem after_mem (side : Side) (i j : Rectangle) :
    side.after i j ∈ [i.x, i.y] ++ [j.x, j.y] := by
  cases side <;> simp [after, terms]

theorem gap_within (side : Side) (i j : Rectangle) :
    -Precedence.span ≤ side.gap i j ∧ side.gap i j ≤ Precedence.span := by
  have hnonneg := (side.terms i j).2.1.nonneg
  have hle := (side.terms i j).2.1.le_maxValue
  unfold gap
  simp only [Precedence.span, Word.maxValue] at *
  omega

theorem Apart.possible (hV : V.Consistent) (hside : side.Apart i j V) : side.Possible i j V := by
  have hbefore := hV (side.before i j)
  have hafter := hV (side.after i j)
  unfold Apart at hside
  unfold Possible
  omega

theorem Possible.mono (hle : ∀ x ∈ [i.x, i.y] ++ [j.x, j.y], W x ≤ V x)
    (hside : side.Possible i j W) : side.Possible i j V := by
  have hbefore := (hle _ (before_mem side i j)).1
  have hafter := (hle _ (after_mem side i j)).2
  unfold Possible at *
  omega

theorem Apart.anti (hle : ∀ x ∈ [i.x, i.y] ++ [j.x, j.y], W x ≤ V x)
    (hside : side.Apart i j V) : side.Apart i j W := by
  have hbefore := (hle _ (before_mem side i j)).2
  have hafter := (hle _ (after_mem side i j)).1
  unfold Apart at *
  omega

theorem remaining_sublist (hle : ∀ x ∈ [i.x, i.y] ++ [j.x, j.y], W x ≤ V x) :
    (remaining i j W).Sublist (remaining i j V) := by
  unfold remaining
  apply List.monotone_filter_right
  intro side hside
  rw [decide_eq_true_iff] at *
  exact hside.mono hle

theorem remaining_congr (hsame : ∀ x ∈ [i.x, i.y] ++ [j.x, j.y], V x = W x) :
    remaining i j V = remaining i j W := by
  apply List.Sublist.antisymm
  · exact remaining_sublist fun x hx => (hsame x hx).le
  · exact remaining_sublist fun x hx => (hsame x hx).ge

theorem isPossible_eq (hs : s.Consistent) (hhas : ∀ x ∈ [i.x, i.y] ++ [j.x, j.y], s.Has x) :
    side.isPossible i j s = .ok (decide (side.Possible i j s.view)) := by
  have hbefore := hhas _ (before_mem side i j)
  have hafter := hhas _ (after_mem side i j)
  have hle := (hs.view (side.before i j)).trans (hs.greatest _)
  have hfit := (Update.fit_of_span (gap_within side i j) ⟨hs.least (side.before i j), hle⟩).1
  change (do
    let reach ← Word.fit ((← s.lower (side.before i j)) + side.gap i j)
    return decide (reach ≤ (← s.upper (side.after i j)))) = _
  rw [Store.lower_of_has hbefore, Store.upper_of_has hafter]
  simp only [bind, Except.bind, hfit]
  rfl

theorem isEntailed_eq (hs : s.Consistent) (hhas : ∀ x ∈ [i.x, i.y] ++ [j.x, j.y], s.Has x) :
    side.isEntailed i j s = .ok (decide (side.Apart i j s.view)) := by
  have hbefore := hhas _ (before_mem side i j)
  have hafter := hhas _ (after_mem side i j)
  have hle := (hs.least (side.before i j)).trans (hs.view _)
  have hfit := (Update.fit_of_span (gap_within side i j) ⟨hle, hs.greatest (side.before i j)⟩).1
  change (do
    let reach ← Word.fit ((← s.upper (side.before i j)) + side.gap i j)
    return decide (reach ≤ (← s.lower (side.after i j)))) = _
  rw [Store.upper_of_has hbefore, Store.lower_of_has hafter]
  simp only [bind, Except.bind, hfit]
  rfl

theorem enforce_eq (side : Side) (i j : Rectangle) :
    side.enforce i j = Update.shift (side.before i j) (side.gap i j) (side.after i j) := by
  rfl

theorem firstPossible_eq (hs : s.Consistent) (hhas : ∀ x ∈ [i.x, i.y] ++ [j.x, j.y], s.Has x)
    (n : Nat) (sides : List Side) :
    firstPossible i j s n sides =
      .ok ((sides.filter fun side => side.Possible i j s.view).take n) := by
  induction sides generalizing n with
  | nil => cases n <;> rfl
  | cons side rest ih =>
      cases n with
      | zero => rfl
      | succ n =>
          unfold firstPossible
          rw [isPossible_eq hs hhas]
          by_cases hside : side.Possible i j s.view
          · simp [bind, Except.bind, pure, Except.pure, hside, ih]
          · simp [bind, Except.bind, hside, ih]

end Side

namespace NonOverlap

/-- One side at least is possible for the pair, and if it is the only one, its variables are
shifted. -/
def PairClosed (i j : Rectangle) (V : View) : Prop :=
  match Side.remaining i j V with
  | [] => False
  | [side] => V.Shifted (side.before i j) (side.gap i j) (side.after i j)
  | _ => True

def Closed (c : NonOverlap) (V : View) : Prop :=
  ∀ pair ∈ c.pairs, PairClosed pair.1 pair.2 V

def Entailed (c : NonOverlap) (V : View) : Prop :=
  ∀ pair ∈ c.pairs, ∃ side ∈ Side.all, side.Apart pair.1 pair.2 V

instance (c : NonOverlap) (V : View) : Decidable (c.Entailed V) :=
  inferInstanceAs (Decidable (∀ pair ∈ _, ∃ side ∈ _, _))

section Pair

variable {i j : Rectangle} {V W : View} {s : Store} {xs : List Var} {closed : View → Prop}

theorem PairClosed.congr (hsame : ∀ x ∈ [i.x, i.y] ++ [j.x, j.y], V x = W x)
    (hV : PairClosed i j V) : PairClosed i j W := by
  unfold PairClosed at *
  rw [← Side.remaining_congr hsame]
  split at hV
  · exact hV
  · rename_i side hside
    unfold View.Shifted at *
    rw [← hsame _ (Side.before_mem side i j), ← hsame _ (Side.after_mem side i j)]
    exact hV
  · trivial

/-- A closed view leaves no fewer sides than there are in a larger view with one side. -/
theorem PairClosed.shifted {side : Side} (hV : PairClosed i j V)
    (hle : ∀ x ∈ [i.x, i.y] ++ [j.x, j.y], V x ≤ W x) (hW : Side.remaining i j W = [side]) :
    V.Shifted (side.before i j) (side.gap i j) (side.after i j) := by
  have hsub := Side.remaining_sublist hle
  rw [hW] at hsub
  unfold PairClosed at hV
  rcases List.sublist_singleton.mp hsub with hnone | hone
  · rw [hnone] at hV
    contradiction
  · rw [hone] at hV
    exact hV

theorem PairClosed.remaining_ne_nil (hV : PairClosed i j V)
    (hle : ∀ x ∈ [i.x, i.y] ++ [j.x, j.y], V x ≤ W x) : Side.remaining i j W ≠ [] := by
  intro hW
  have hsub := Side.remaining_sublist hle
  rw [hW, List.sublist_nil] at hsub
  unfold PairClosed at hV
  rw [hsub] at hV
  exact hV

theorem pairClosed_of_apart {side : Side} (hV : V.Consistent) (hside : side.Apart i j V) :
    PairClosed i j V := by
  have hmem : side ∈ Side.remaining i j V := Side.mem_remaining.mpr (hside.possible hV)
  unfold PairClosed
  split
  · rename_i hnone
    rw [hnone] at hmem
    simp at hmem
  · rename_i other hone
    rw [hone, List.mem_singleton] at hmem
    subst hmem
    exact View.shifted_of_apart hV hside
  · trivial

theorem prunePair_prunes (hs : s.Consistent) (hhas : ∀ x ∈ [i.x, i.y] ++ [j.x, j.y], s.Has x)
    (hxs : ∀ x ∈ [i.x, i.y] ++ [j.x, j.y], x ∈ xs) (hclosed : ∀ V, closed V → PairClosed i j V) :
    (prunePair i j).Prunes xs closed s fun changed t =>
      (changed = false ↔ t.view = s.view) ∧ (t.view = s.view → PairClosed i j s.view) := by
  have hwithin : ∀ V, s.Encloses V → ∀ x ∈ [i.x, i.y] ++ [j.x, j.y], V x ≤ s.view x := by
    intro V hsV x hx
    exact hsV x (hhas x hx)
  have hfirst := Side.firstPossible_eq hs hhas 2 Side.all
  unfold prunePair
  apply Update.Prunes.read_bind hfirst
  change (match (Side.remaining i j s.view).take 2 with
    | [] => Update.wipeOut j.x
    | [side] => side.enforce i j
    | _ => return false : Update Bool).Prunes _ _ _ _
  -- with two sides or more left, the first two already tell that nothing follows
  match hremaining : Side.remaining i j s.view with
  | [] =>
      apply Update.Prunes.wipeOut hs (hhas j.x (by simp))
      intro V hV hclosedV hsV
      exact (hclosed V hclosedV).remaining_ne_nil (hwithin V hsV) hremaining
  | [side] =>
      have hshift := Update.shift_prunes hs (hhas _ (Side.before_mem side i j))
        (hhas _ (Side.after_mem side i j)) (Side.gap_within side i j)
      simp only [List.take_succ_cons, List.take_nil]
      rw [Side.enforce_eq]
      rcases hshift with ⟨reply, t, happly, heffect, hpost⟩
      refine ⟨reply, t, happly, ⟨heffect.narrowing, ?_, heffect.agrees, ?_⟩, ?_⟩
      · intro x hx
        apply heffect.frame
        intro hmem
        simp only [List.mem_cons, List.not_mem_nil, or_false] at hmem
        rcases hmem with rfl | rfl
        · exact hx (hxs _ (Side.before_mem side i j))
        · exact hx (hxs _ (Side.after_mem side i j))
      · intro V hV hclosedV hsV
        have hshifted := (hclosed V hclosedV).shifted (hwithin V hsV) hremaining
        exact heffect.keeps V hV hshifted hsV
      · intro changed hreply
        obtain ⟨hchanged, hsame, -⟩ := hpost changed hreply
        refine ⟨hchanged, ?_⟩
        intro hview
        unfold PairClosed
        rw [hremaining]
        exact hsame hview
  | first :: second :: rest =>
      apply Update.Prunes.pure hs.failure
      refine ⟨by simp, ?_⟩
      intro _
      unfold PairClosed
      rw [hremaining]
      trivial

end Pair

section Sweep

variable {ps : List (Rectangle × Rectangle)} {s : Store} {xs : List Var} {closed : View → Prop}

theorem sweep_prunes (hs : s.Consistent)
    (hhas : ∀ pair ∈ ps, ∀ x ∈ [pair.1.x, pair.1.y] ++ [pair.2.x, pair.2.y], s.Has x)
    (hxs : ∀ pair ∈ ps, ∀ x ∈ [pair.1.x, pair.1.y] ++ [pair.2.x, pair.2.y], x ∈ xs)
    (hclosed : ∀ V, closed V → ∀ pair ∈ ps, PairClosed pair.1 pair.2 V) :
    (sweep ps).Prunes xs closed s fun changed t =>
      (changed = false ↔ t.view = s.view) ∧
        (t.view = s.view → ∀ pair ∈ ps, PairClosed pair.1 pair.2 s.view) := by
  induction ps generalizing s with
  | nil => exact Update.Prunes.pure hs.failure ⟨by simp, by simp⟩
  | cons pair rest ih =>
      rcases pair with ⟨i, j⟩
      unfold sweep
      refine Update.Prunes.bind hs (prunePair_prunes hs (hhas _ List.mem_cons_self)
        (hxs _ List.mem_cons_self) fun V hV => hclosed V hV _ List.mem_cons_self) ?_
      rintro changed t hst ht ⟨hchanged, hpair⟩
      have hlater := ih ht
        (fun pair hmem x hx => hst.has_iff.mpr (hhas pair (List.mem_cons_of_mem _ hmem) x hx))
        (fun pair hmem => hxs pair (List.mem_cons_of_mem _ hmem))
        (fun V hV pair hmem => hclosed V hV pair (List.mem_cons_of_mem _ hmem))
      refine Update.Prunes.bind ht (hlater.mono (fun _ => id) (fun _ => id)
        (fun _ u htu _ hpost => And.intro htu hpost)) ?_
      rintro changedLater u - hu ⟨htu, hchangedLater, hrest⟩
      apply Update.Prunes.pure hu.failure
      constructor
      · rw [Bool.or_eq_false_iff, hchanged, hchangedLater]
        constructor
        · rintro ⟨hfirst, hsecond⟩
          exact hsecond.trans hfirst
        · intro hsame
          have hfirst := hst.view_eq_of_view_eq htu hsame
          exact ⟨hfirst, hsame.trans hfirst.symm⟩
      · intro hsame pair hmem
        have hfirst := hst.view_eq_of_view_eq htu hsame
        rcases List.mem_cons.mp hmem with rfl | hmem
        · exact hpair hfirst
        · have hclosedLater := hrest (hsame.trans hfirst.symm) pair hmem
          rwa [hfirst] at hclosedLater

theorem settle_prunes {fuel : Nat} (hfuel : s.weight < fuel) (hs : s.Consistent)
    (hhas : ∀ pair ∈ ps, ∀ x ∈ [pair.1.x, pair.1.y] ++ [pair.2.x, pair.2.y], s.Has x)
    (hxs : ∀ pair ∈ ps, ∀ x ∈ [pair.1.x, pair.1.y] ++ [pair.2.x, pair.2.y], x ∈ xs)
    (hclosed : ∀ V, closed V → ∀ pair ∈ ps, PairClosed pair.1 pair.2 V) :
    (settle ps fuel).Prunes xs closed s fun _ t =>
      ∀ pair ∈ ps, PairClosed pair.1 pair.2 t.view := by
  -- the induction is on the fuel: a sweep that changes something lowers the weight, and the last
  -- one has found every pair closed
  induction fuel generalizing s with
  | zero => omega
  | succ fuel ih =>
      unfold settle
      refine Update.Prunes.bind hs (sweep_prunes hs hhas hxs hclosed) ?_
      rintro changed t hst ht ⟨hchanged, hpairs⟩
      cases changed with
      | false =>
          have hsame := hchanged.mp rfl
          rw [if_neg (by simp)]
          apply Update.Prunes.pure ht.failure
          rw [hsame]
          exact hpairs hsame
      | true =>
          rw [if_pos rfl]
          have hne : t.view ≠ s.view := fun hsame => by simpa using hchanged.mpr hsame
          have hlt := hst.weight_lt hne
          apply ih (by omega) ht
          intro pair hmem x hx
          exact hst.has_iff.mpr (hhas pair hmem x hx)

end Sweep

/-- The pairs of a list are all that a relation between its entries has to hold of. -/
theorem pairwise_iff {α : Type} {R : α → α → Prop} {as : List α} :
    as.Pairwise R ↔ ∀ pair ∈ pairsOf as, R pair.1 pair.2 := by
  induction as with
  | nil => simp [pairsOf]
  | cons a rest ih =>
      unfold pairsOf
      rw [List.pairwise_cons, ih, List.forall_mem_append, List.forall_mem_map]

theorem mem_pairsOf_iff {α : Type} {as : List α} {pair : α × α} :
    pair ∈ pairsOf as ↔ [pair.1, pair.2].Sublist as := by
  constructor
  · have hsub : as.Pairwise fun a b => [a, b].Sublist as :=
      List.pairwise_iff_forall_sublist.mpr fun h => h
    exact pairwise_iff.mp hsub pair
  · have hmem : as.Pairwise fun a b => (a, b) ∈ pairsOf as := pairwise_iff.mpr fun _ h => h
    exact List.pairwise_iff_forall_sublist.mp hmem

theorem mem_of_mem_pairsOf {α : Type} {as : List α} {pair : α × α} (h : pair ∈ pairsOf as) :
    pair.1 ∈ as ∧ pair.2 ∈ as := by
  have hsub := (mem_pairsOf_iff.mp h).subset
  exact ⟨hsub (by simp), hsub (by simp)⟩

theorem mem_watched {c : NonOverlap} {pair : Rectangle × Rectangle} (hpair : pair ∈ c.pairs)
    {x : Var} (hx : x ∈ [pair.1.x, pair.1.y] ++ [pair.2.x, pair.2.y]) :
    x ∈ Propagator.watched c := by
  obtain ⟨hleft, hright⟩ := mem_of_mem_pairsOf hpair
  change x ∈ c.rectangles.flatMap fun r => [r.x, r.y]
  rw [List.mem_flatMap]
  rcases List.mem_append.mp hx with hx | hx
  · exact ⟨_, hleft, hx⟩
  · exact ⟨_, hright, hx⟩

private theorem allM_eq_ok {α ε : Type} {f : α → Except ε Bool} {g : α → Bool} {as : List α}
    (h : ∀ a ∈ as, f a = .ok (g a)) : as.allM f = .ok (as.all g) := by
  induction as with
  | nil => rfl
  | cons a rest ih =>
      have hrest := ih fun b hb => h b (List.mem_cons_of_mem _ hb)
      unfold List.allM
      rw [h a List.mem_cons_self, hrest]
      cases hga : g a <;> simp [bind, Except.bind, pure, Except.pure, hga]

private theorem anyM_eq_ok {α ε : Type} {f : α → Except ε Bool} {g : α → Bool} {as : List α}
    (h : ∀ a ∈ as, f a = .ok (g a)) : as.anyM f = .ok (as.any g) := by
  induction as with
  | nil => rfl
  | cons a rest ih =>
      have hrest := ih fun b hb => h b (List.mem_cons_of_mem _ hb)
      unfold List.anyM
      rw [h a List.mem_cons_self, hrest]
      cases hga : g a <;> simp [bind, Except.bind, pure, Except.pure, hga]

theorem isSeparated_eq {c : NonOverlap} {s : Store} (hs : s.Consistent)
    (hhas : ∀ x ∈ Propagator.watched c, s.Has x) :
    c.isSeparated s = .ok (decide (c.Entailed s.view)) := by
  unfold isSeparated
  have hpairs : ∀ pair ∈ c.pairs,
      (Side.all.anyM fun side => side.isEntailed pair.1 pair.2 s) =
        .ok (Side.all.any fun side => side.Apart pair.1 pair.2 s.view) := by
    intro pair hpair
    apply anyM_eq_ok
    intro side _
    exact Side.isEntailed_eq hs fun x hx => hhas x (mem_watched hpair hx)
  rw [allM_eq_ok hpairs, Except.ok.injEq, Bool.eq_iff_iff, decide_eq_true_iff]
  simp [Entailed]

theorem propagate_prunes {c : NonOverlap} {s : Store} (hs : s.Consistent)
    (hhas : ∀ x ∈ Propagator.watched c, s.Has x) :
    c.propagate.Prunes (Propagator.watched c) c.Closed s fun verdict t =>
      c.Closed t.view ∧ (verdict = .entailed ↔ c.Entailed t.view) := by
  unfold propagate
  apply Update.Prunes.read_bind (f := fun s => return s.weight) (a := s.weight) rfl
  refine Update.Prunes.bind hs (settle_prunes (Nat.lt_succ_self _) hs ?_ ?_ fun V hV => hV) ?_
  · intro pair hpair x hx
    exact hhas x (mem_watched hpair hx)
  · intro pair hpair x hx
    exact mem_watched hpair hx
  intro _ t hst ht hclosed
  have hread := isSeparated_eq ht fun x hx => hst.has_iff.mpr (hhas x hx)
  apply Update.Prunes.read_bind hread
  by_cases hentailed : c.Entailed t.view
  · rw [if_pos (decide_eq_true hentailed)]
    exact Update.Prunes.pure ht.failure ⟨hclosed, by simp [hentailed]⟩
  · rw [if_neg (by simpa using hentailed)]
    exact Update.Prunes.pure ht.failure ⟨hclosed, by simp [hentailed]⟩

instance : Filtering NonOverlap where
  Closed := Closed
  Entailed := Entailed
  Admissible _ := True
  Settles _ := True
  prunes {c s} _ hs hhas := by
    refine (propagate_prunes hs hhas).mono (fun _ => id) (fun _ => id) ?_
    rintro verdict t - - ⟨hclosed, hverdict⟩
    exact ⟨fun _ => hclosed, fun _ _ => hclosed, hverdict.mp⟩
  closed_congr {c V W} hsame hV := by
    intro pair hpair
    exact (hV pair hpair).congr fun x hx => hsame x (mem_watched hpair hx)
  entailed_anti {c V W} hle hV := by
    intro pair hpair
    obtain ⟨side, hside, hapart⟩ := hV pair hpair
    exact ⟨side, hside, hapart.anti fun x hx => hle x (mem_watched hpair hx)⟩
  closed_of_entailed {c V} hV hentailed := by
    intro pair hpair
    obtain ⟨side, -, hapart⟩ := hentailed pair hpair
    exact pairClosed_of_apart hV hapart

theorem closed_ofValues_iff {c : NonOverlap} {value : Var → Int} :
    Filtering.Closed c (View.ofValues value) ↔ c.Holds value := by
  refine Iff.trans ?_ pairwise_iff.symm
  apply forall₂_congr
  rintro ⟨i, j⟩ -
  rw [← Side.exists_possible_iff]
  constructor
  · intro hclosed
    have hremaining := hclosed.remaining_ne_nil fun _ _ => le_rfl
    obtain ⟨side, hside⟩ := List.exists_mem_of_ne_nil _ hremaining
    exact ⟨side, Side.mem_remaining.mp hside⟩
  · rintro ⟨side, hside⟩
    exact pairClosed_of_apart (View.consistent_ofValues value) hside

end NonOverlap

end FiniteDomain
