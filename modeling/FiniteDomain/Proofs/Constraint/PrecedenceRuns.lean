import FiniteDomain.Proofs.Constraint.Precedence

/-!
# Runs of a precedence

A run cuts two domains: the one of the variable that comes after, and then, by what is left of it, the
one of the variable that comes before.  If the variables differ, the outcome can be read off the bounds.
They get the smallest domains around the pairs of values that keep the gap, and the run fails if there is
no such pair.  This is the gap that was asked for: cutting it to the span makes no difference on values
that a domain may hold, and keeps every shifted bound within the word.

A second run finds nothing to do, unless both variables are the same and the gap is positive.  No value
keeps a positive gap to itself, but a run only takes the gap off both ends of the domain, and the next run
would have to do the same again.
-/

namespace FiniteDomain

namespace Update

variable {α β : Type} {u : Update α} {k : α → Update β} {s t : Store}

theorem apply_bind_of_ok {a : α} (h : u.apply s = .ok (.ok a, t)) :
    (u >>= k).apply s = (k a).apply t := by
  rw [apply_bind, h]

theorem apply_bind_of_error {w : Wipeout} (h : u.apply s = .ok (.error w, t)) :
    (u >>= k).apply s = .ok (.error w, t) := by
  rw [apply_bind, h]

theorem apply_read_of_ok {f : Store → Except Fault α} {a : α} (h : f s = .ok a) :
    (read f).apply s = .ok (.ok a, s) := by
  rw [apply_read, h]
  rfl

/-- An update that aims at a view in which one domain may be empty: if it is, the update fails, and
otherwise it leaves the view. -/
structure Lands {α : Type} (V : View) (x : Var) (s : Store) (reply : Except Wipeout α) (t : Store) :
    Prop where
  fails_iff : (∃ w, reply = .error w) ↔ (V x).ub < (V x).lb
  failure : ∀ a, reply = .ok a → t.failure = none
  view : ∀ a, reply = .ok a → t.view = V
  has_iff : ∀ a, reply = .ok a → ∀ y, t.Has y ↔ s.Has y

theorem Lands.of_crossed {V : View} {x : Var} {w : Wipeout} (hV : (V x).ub < (V x).lb) :
    Lands V x s (.error w : Except Wipeout α) t where
  fails_iff := ⟨fun _ => hV, fun _ => ⟨w, rfl⟩⟩
  failure := by simp
  view := by simp
  has_iff := by simp

theorem Lands.of_le {V : View} {x : Var} {a : α} (hV : (V x).lb ≤ (V x).ub)
    (hfailure : t.failure = none) (hview : t.view = V) (hhas : ∀ y, t.Has y ↔ s.Has y) :
    Lands V x s (.ok a) t where
  fails_iff := by simpa using hV
  failure _ _ := hfailure
  view _ _ := hview
  has_iff _ _ := hhas

theorem Lands.crossed {V : View} {x : Var} {w : Wipeout}
    (h : Lands V x s (.error w : Except Wipeout α) t) : (V x).ub < (V x).lb :=
  h.fails_iff.mp ⟨w, rfl⟩

theorem Lands.le {V : View} {x : Var} {a : α} (h : Lands V x s (.ok a) t) :
    (V x).lb ≤ (V x).ub := by
  by_contra hcrossed
  obtain ⟨w, hw⟩ := h.fails_iff.mpr (not_le.mp hcrossed)
  contradiction

theorem narrow_lands {x : Var} (hs : s.failure = none) (hx : s.Has x) (lb ub : Int) :
    ∃ reply t, (narrow x lb ub).apply s = .ok (reply, t) ∧
      Lands (s.view.cut x ⟨lb, ub⟩) x s reply t := by
  have happly := Store.narrow_of_has hs hx lb ub
  cases hempty : ((s.view x).inter ⟨lb, ub⟩).isEmpty with
  | true =>
      simp only [hempty, if_true] at happly
      refine ⟨_, _, happly, .of_crossed ?_⟩
      rw [View.cut_self]
      exact of_decide_eq_true hempty
  | false =>
      have hle := Interval.isEmpty_eq_false_iff.mp hempty
      simp only [hempty, Bool.false_eq_true, if_false] at happly
      refine ⟨_, _, happly, .of_le ?_ ?_ (Store.view_cut hx) fun _ => Store.has_cut⟩
      · rw [View.cut_self]
        exact hle
      · exact Store.failure_cut.trans hs

end Update

namespace View

variable {V : View} {before after : Var} {gap : Int}

/-- The later variable is cut first, and then the earlier one, by what is left. -/
def shift (V : View) (before : Var) (gap : Int) (after : Var) : View :=
  let raised := V.cut after ⟨(V before).lb + gap, Word.greatest⟩
  raised.cut before ⟨Word.least, (raised after).ub - gap⟩

theorem shift_of_ne {x : Var} (hbefore : x ≠ before) (hafter : x ≠ after) :
    V.shift before gap after x = V x := by
  unfold shift
  rw [cut_of_ne _ hbefore, cut_of_ne _ hafter]

theorem shift_le (V : View) (before : Var) (gap : Int) (after : Var) :
    V.shift before gap after ≤ V :=
  (cut_le _ _ _).trans (cut_le _ _ _)

theorem shift_before (hne : before ≠ after) (hbefore : (V before).IsDomain)
    (hafter : (V after).IsDomain) :
    V.shift before gap after before =
      ⟨(V before).lb, min (V before).ub ((V after).ub - gap)⟩ := by
  have hleast := hbefore.least
  have hgreatest := hafter.greatest
  unfold shift
  rw [cut_self, cut_of_ne _ hne, cut_self]
  simp only [Interval.inter, Interval.mk.injEq, Word.minValue, Word.maxValue, Word.least,
    Word.greatest] at *
  omega

theorem shift_after (hne : before ≠ after) (hafter : (V after).IsDomain) :
    V.shift before gap after after =
      ⟨max (V after).lb ((V before).lb + gap), (V after).ub⟩ := by
  have hgreatest := hafter.greatest
  unfold shift
  rw [cut_of_ne _ hne.symm, cut_self]
  simp only [Interval.inter, Interval.mk.injEq, true_and, Word.maxValue, Word.greatest] at *
  omega

end View

namespace Update

variable {s : Store} {before after : Var} {gap : Int}

/-- If the later variable is left without a value, so is the earlier one. -/
theorem crossed_of_raised {V : View} (hne : before ≠ after) (hbefore : (V before).IsDomain)
    (hafter : (V after).IsDomain)
    (hcrossed : min (V after).ub Word.greatest < max (V after).lb ((V before).lb + gap)) :
    (V.shift before gap after before).ub < (V.shift before gap after before).lb := by
  have hle := hafter.nonempty
  have hgreatest := hafter.greatest
  rw [View.shift_before hne hbefore hafter]
  simp only [Word.maxValue, Word.greatest] at *
  omega

theorem shift_lands (hs : s.failure = none) (hne : before ≠ after) (hbefore : s.Has before)
    (hafter : s.Has after) (hdbefore : (s.view before).IsDomain)
    (hdafter : (s.view after).IsDomain)
    (hgap : -Precedence.span ≤ gap ∧ gap ≤ Precedence.span) :
    ∃ reply t, (shift before gap after).apply s = .ok (reply, t) ∧
      Lands (s.view.shift before gap after) before s reply t := by
  have hearliest := fit_lower hbefore hdbefore hgap
  unfold shift setLower setUpper
  rw [apply_bind_of_ok (apply_read_of_ok hearliest)]
  obtain ⟨first, t, hfirst, hraised⟩ :=
    narrow_lands hs hafter ((s.view before).lb + gap) Word.greatest
  cases first with
  | error w =>
      have hcrossed := hraised.crossed
      rw [View.cut_self] at hcrossed
      rw [apply_bind_of_error hfirst]
      exact ⟨_, _, rfl, .of_crossed (crossed_of_raised hne hdbefore hdafter hcrossed)⟩
  | ok raised =>
      rw [apply_bind_of_ok hfirst]
      have hview := hraised.view raised rfl
      have hhas := hraised.has_iff raised rfl
      have hdomain : (t.view after).IsDomain := by
        have hle := hraised.le
        rw [← hview] at hle
        refine hdafter.of_le ?_ hle
        rw [hview]
        exact View.cut_le _ _ _ _
      have hlatest := fit_upper ((hhas after).mpr hafter) hdomain hgap
      rw [apply_bind_of_ok (apply_read_of_ok hlatest)]
      obtain ⟨second, u, hsecond, hlowered⟩ := narrow_lands (hraised.failure raised rfl)
        ((hhas before).mpr hbefore) Word.least ((t.view after).ub - gap)
      have haim : t.view.cut before ⟨Word.least, (t.view after).ub - gap⟩ =
          s.view.shift before gap after := by
        rw [hview]
        rfl
      rw [haim] at hlowered
      cases second with
      | error w =>
          rw [apply_bind_of_error hsecond]
          exact ⟨_, _, rfl, .of_crossed hlowered.crossed⟩
      | ok lowered =>
          rw [apply_bind_of_ok hsecond]
          refine ⟨_, _, rfl, .of_le hlowered.le (hlowered.failure lowered rfl)
            (hlowered.view lowered rfl) fun y => ?_⟩
          exact (hlowered.has_iff lowered rfl y).trans (hhas y)

end Update

namespace Precedence

variable {c : Precedence} {s t : Store} {x y : Var} {gap : Int} {reply : Except Wipeout Verdict}
  {verdict : Verdict}

/-- A store that has failed answers the first update of a run with its failure. -/
theorem propagate_of_failed {w : Wipeout} (hs : s.failure = some w) (hx : s.Has c.x)
    (hdx : (s.view c.x).IsDomain) (hgap : c.Admissible) :
    c.propagate.apply s = .ok (.error w, s) := by
  have hearliest := Update.fit_lower hx hdx hgap
  have hfirst : (Update.narrow c.y ((s.view c.x).lb + c.gap) Word.greatest).apply s =
      .ok (.error w, s) :=
    Store.narrow_of_failed hs _ _ _
  rw [propagate_eq]
  unfold Update.shift Update.setLower
  rw [bind_assoc, Update.apply_bind_of_ok (Update.apply_read_of_ok hearliest), bind_assoc,
    Update.apply_bind_of_error hfirst]

theorem propagate_lands (hs : s.failure = none) (hne : c.x ≠ c.y) (hx : s.Has c.x)
    (hy : s.Has c.y) (hdx : (s.view c.x).IsDomain) (hdy : (s.view c.y).IsDomain)
    (hgap : c.Admissible) :
    ∃ reply t, c.propagate.apply s = .ok (reply, t) ∧
      Update.Lands (s.view.shift c.x c.gap c.y) c.x s reply t ∧
      ∀ verdict, reply = .ok verdict → (verdict = .entailed ↔ c.Entailed t.view) := by
  obtain ⟨moved, t, hshift, hlands⟩ := Update.shift_lands hs hne hx hy hdx hdy hgap
  rw [propagate_eq]
  cases moved with
  | error w =>
      rw [Update.apply_bind_of_error hshift]
      exact ⟨_, _, rfl, .of_crossed hlands.crossed, by simp⟩
  | ok changed =>
      have hle := hlands.le
      have hview := hlands.view changed rfl
      have hfailure := hlands.failure changed rfl
      have hhas := hlands.has_iff changed rfl
      have hdomain : (t.view c.x).IsDomain := by
        rw [hview]
        exact hdx.of_le (View.shift_le _ _ _ _ _) hle
      have hread := isEntailed_eq ((hhas c.x).mpr hx) ((hhas c.y).mpr hy) hdomain hgap
      rw [Update.apply_bind_of_ok hshift, Update.apply_bind_of_ok (Update.apply_read_of_ok hread)]
      by_cases hentailed : c.Entailed t.view
      · rw [if_pos (decide_eq_true hentailed)]
        refine ⟨_, _, rfl, .of_le hle hfailure hview hhas, ?_⟩
        simp [hentailed]
      · rw [if_neg (by simpa using hentailed)]
        refine ⟨_, _, rfl, .of_le hle hfailure hview hhas, ?_⟩
        simp [hentailed]

/-- The values lie in the domains of the two variables and keep the gap. -/
def Pairs (x : Var) (gap : Int) (y : Var) (V : View) (a b : Int) : Prop :=
  a ∈ V x ∧ b ∈ V y ∧ a + gap ≤ b

/-- A run on `s` that ends with `reply` on `t` has been exact: it has failed only for want of a pair, it
has left the smallest domains around the pairs, and it has seen whether all values left are pairs. -/
structure Exact (x : Var) (gap : Int) (y : Var) (s : Store) (reply : Except Wipeout Verdict)
    (t : Store) : Prop where
  fails_iff : (∃ w, reply = .error w) ↔ ¬ ∃ a b, Pairs x gap y s.view a b
  hull : ∀ verdict, reply = .ok verdict →
    IsLeast {d : Interval | ∀ a b, Pairs x gap y s.view a b → a ∈ d} (t.view x) ∧
      IsLeast {d : Interval | ∀ a b, Pairs x gap y s.view a b → b ∈ d} (t.view y)
  frame : ∀ verdict, reply = .ok verdict → ∀ z, z ≠ x → z ≠ y → t.view z = s.view z
  entailed_iff : ∀ verdict, reply = .ok verdict →
    (verdict = .entailed ↔ ∀ a ∈ t.view x, ∀ b ∈ t.view y, a + gap ≤ b)

section Bounds

variable {V : View} {a b : Int}

theorem pairs_iff (hx : (V x).IsDomain) (hy : (V y).IsDomain) :
    Pairs x gap y V a b ↔ a ∈ V x ∧ b ∈ V y ∧ a + (between x gap y).gap ≤ b := by
  refine and_congr_right fun ha => and_congr_right fun hb => ?_
  exact (between_gap_le_iff (hx.mem_range ha) (hy.mem_range hb)).symm

theorem entailed_iff_forall (hx : (V x).IsDomain) (hy : (V y).IsDomain) :
    (between x gap y).Entailed V ↔ ∀ a ∈ V x, ∀ b ∈ V y, a + gap ≤ b := by
  constructor
  · intro hentailed a ha b hb
    have hkeeps : a + (between x gap y).gap ≤ b := by
      have hle : (V x).ub + (between x gap y).gap ≤ (V y).lb := hentailed
      have hupper := ha.2
      have hlower := hb.1
      omega
    exact ((pairs_iff hx hy).mpr ⟨ha, hb, hkeeps⟩).2.2
  · intro hall
    have hkeeps := hall _ hx.ub_mem _ hy.lb_mem
    exact ((pairs_iff hx hy).mp ⟨hx.ub_mem, hy.lb_mem, hkeeps⟩).2.2

/-- If there is a pair at all, then the least value of the earlier variable and the greatest one of the
later variable are one. -/
theorem shift_le_iff_exists_pairs (hne : x ≠ y) (hx : (V x).IsDomain) (hy : (V y).IsDomain) :
    (V.shift x (between x gap y).gap y x).lb ≤ (V.shift x (between x gap y).gap y x).ub ↔
      ∃ a b, Pairs x gap y V a b := by
  rw [View.shift_before hne hx hy]
  simp only [pairs_iff hx hy, Interval.mem_iff]
  have hle := hx.nonempty
  have hle' := hy.nonempty
  constructor
  · intro hroom
    refine ⟨(V x).lb, (V y).ub, ⟨le_rfl, hle⟩, ⟨hle', le_rfl⟩, ?_⟩
    omega
  · rintro ⟨a, b, ha, hb, hkeeps⟩
    omega

section Shifted

variable (hne : x ≠ y) (hx : (V x).IsDomain) (hy : (V y).IsDomain)
  (hpair : ∃ a b, Pairs x gap y V a b)
include hne hx hy hpair

theorem isDomain_shift : (V.shift x (between x gap y).gap y x).IsDomain ∧
    (V.shift x (between x gap y).gap y y).IsDomain := by
  have hroom := (shift_le_iff_exists_pairs hne hx hy).mpr hpair
  refine ⟨hx.of_le (View.shift_le _ _ _ _ _) hroom, hy.of_le (View.shift_le _ _ _ _ _) ?_⟩
  have hle := hx.nonempty
  have hle' := hy.nonempty
  rw [View.shift_before hne hx hy] at hroom
  rw [View.shift_after hne hy]
  dsimp only at *
  omega

theorem isLeast_shift_before :
    IsLeast {d : Interval | ∀ a b, Pairs x gap y V a b → a ∈ d}
      (V.shift x (between x gap y).gap y x) := by
  have hroom := (shift_le_iff_exists_pairs hne hx hy).mpr hpair
  have hle := hy.nonempty
  rw [View.shift_before hne hx hy] at hroom ⊢
  simp only [pairs_iff hx hy]
  dsimp only at hroom
  constructor
  · rintro a b ⟨ha, hb, hkeeps⟩
    simp only [Interval.mem_iff] at *
    omega
  · intro d hd
    have hlower := hd (V x).lb (V y).ub
    have hupper := hd (min (V x).ub ((V y).ub - (between x gap y).gap)) (V y).ub
    simp only [Interval.mem_iff, Interval.le_iff] at *
    omega

theorem isLeast_shift_after :
    IsLeast {d : Interval | ∀ a b, Pairs x gap y V a b → b ∈ d}
      (V.shift x (between x gap y).gap y y) := by
  have hroom := (shift_le_iff_exists_pairs hne hx hy).mpr hpair
  have hle := hx.nonempty
  have hle' := hy.nonempty
  rw [View.shift_before hne hx hy] at hroom
  rw [View.shift_after hne hy]
  simp only [pairs_iff hx hy]
  dsimp only at hroom
  constructor
  · rintro a b ⟨ha, hb, hkeeps⟩
    simp only [Interval.mem_iff] at *
    omega
  · intro d hd
    have hlower := hd (V x).lb (max (V y).lb ((V x).lb + (between x gap y).gap))
    have hupper := hd (V x).lb (V y).ub
    simp only [Interval.mem_iff, Interval.le_iff] at *
    omega

end Shifted

end Bounds

/-- Of two variables, a run is exact, whatever the gap, and its arithmetic stays within the word.  A store
that has failed before answers with its failure and is left as it is. -/
theorem propagate_exact (hne : x ≠ y) (hx : s.Has x) (hy : s.Has y) (hdx : (s.view x).IsDomain)
    (hdy : (s.view y).IsDomain) :
    ∃ reply t, (between x gap y).propagate.apply s = .ok (reply, t) ∧
      (s.failure = none → Exact x gap y s reply t) ∧
      ∀ w, s.failure = some w → reply = .error w ∧ t = s := by
  cases hs : s.failure with
  | some w =>
      refine ⟨.error w, s, propagate_of_failed hs hx hdx (admissible_between x gap y), by simp, ?_⟩
      intro v hv
      rw [Option.some.inj hv]
      exact ⟨rfl, rfl⟩
  | none =>
      obtain ⟨reply, t, hrun, hlands, hentailed⟩ :=
        propagate_lands (c := between x gap y) hs hne hx hy hdx hdy (admissible_between x gap y)
      have hpair : ∀ verdict, reply = .ok verdict → ∃ a b, Pairs x gap y s.view a b := by
        rintro verdict rfl
        exact (shift_le_iff_exists_pairs hne hdx hdy).mp hlands.le
      refine ⟨reply, t, hrun, fun _ => ⟨?_, ?_, ?_, ?_⟩, by simp⟩
      · rw [← shift_le_iff_exists_pairs hne hdx hdy, not_le]
        exact hlands.fails_iff
      · intro verdict hverdict
        rw [hlands.view verdict hverdict]
        exact ⟨isLeast_shift_before hne hdx hdy (hpair verdict hverdict),
          isLeast_shift_after hne hdx hdy (hpair verdict hverdict)⟩
      · intro verdict hverdict z hzx hzy
        rw [hlands.view verdict hverdict]
        exact View.shift_of_ne hzx hzy
      · intro verdict hverdict
        have hdomains := isDomain_shift hne hdx hdy (hpair verdict hverdict)
        rw [hentailed verdict hverdict, hlands.view verdict hverdict]
        exact entailed_iff_forall hdomains.1 hdomains.2

/-- A precedence and domains in which both bounds of each variable have to move. -/
theorem propagate_exact_crossing :
    ∃ t, (between ⟨0⟩ 3 ⟨1⟩).propagate.apply ⟨#[⟨2, 10⟩, ⟨0, 8⟩], #[], none⟩ =
        .ok (.ok .stable, t) ∧
      Exact ⟨0⟩ 3 ⟨1⟩ ⟨#[⟨2, 10⟩, ⟨0, 8⟩], #[], none⟩ (.ok .stable) t ∧
      t.domains = #[⟨2, 5⟩, ⟨5, 8⟩] := by
  obtain ⟨reply, t, hrun, hexact, -⟩ := @propagate_exact ⟨#[⟨2, 10⟩, ⟨0, 8⟩], #[], none⟩ ⟨0⟩ ⟨1⟩ 3
    (by decide) (by decide) (by decide) (by decide) (by decide)
  obtain ⟨rfl, rfl⟩ := Prod.mk.inj (Except.ok.inj hrun)
  exact ⟨_, rfl, hexact rfl, rfl⟩

/-- What idempotence promises of the store that a run has left: another run leaves it as it is, and if no
choice of values is left, the values keep the gap. -/
structure Honours (x : Var) (gap : Int) (y : Var) (t : Store) : Prop where
  again : ∀ changes, ∃ verdict,
    (between x gap y).propagate.apply { t with changes } = .ok (.ok verdict, { t with changes })
  holds : ∀ v w, t.view x = .singleton v → t.view y = .singleton w → v + gap ≤ w

theorem shifted_between_iff {V : View} {y : Var} :
    V.Shifted y (between y gap y).gap y ↔ gap ≤ 0 := by
  simp only [View.Shifted, between, span, Word.maxValue]
  omega

/-- The promise is kept for two variables and for a gap that is not positive, and only then. -/
theorem honours_iff (hs : s.Consistent) (hx : s.Has x) (hy : s.Has y)
    (hrun : (between x gap y).propagate.apply s = .ok (.ok verdict, t)) :
    Honours x gap y t ↔ x ≠ y ∨ gap ≤ 0 := by
  have hgap := admissible_between x gap y
  obtain ⟨heffect, -, hshifted, -⟩ := (propagate_prunes hgap hs hx hy).of_apply hrun
  have ht := heffect.consistent hs
  have hx' : t.Has x := heffect.narrowing.has_iff.mpr hx
  have hy' : t.Has y := heffect.narrowing.has_iff.mpr hy
  have hclosed_iff : t.view.Shifted x (between x gap y).gap y ↔ x ≠ y ∨ gap ≤ 0 := by
    by_cases hne : x = y
    · subst hne
      simp [shifted_between_iff]
    · exact ⟨fun _ => Or.inl hne, fun _ => hshifted hne⟩
  rw [← hclosed_iff]
  constructor
  · intro hhonours
    obtain ⟨again, hagain⟩ := hhonours.again t.changes
    obtain ⟨-, hsame, -⟩ := (propagate_prunes hgap ht hx' hy').of_apply hagain
    exact hsame rfl
  · intro hclosed
    constructor
    · intro changes
      exact Filtering.propagate_of_closed (p := between x gap y) hgap (ht.withChanges changes)
        (by simpa [Propagator.watched, between] using ⟨hx', hy'⟩) hclosed
    · intro v w hv hw
      have hvmem := (ht.isDomain x).lb_mem
      have hwmem := (ht.isDomain y).lb_mem
      have hlower := (between_gap_le_iff ((ht.isDomain x).mem_range hvmem)
        ((ht.isDomain y).mem_range hwmem)).mp hclosed.1
      rw [hv, hw] at hlower
      exact hlower

/-- The promise is broken for a variable that has to precede itself, and kept for the same gap between two
variables. -/
theorem honours_iff_loop :
    (∃ t, (between ⟨0⟩ 3 ⟨0⟩).propagate.apply ⟨#[⟨0, 10⟩], #[], none⟩ = .ok (.ok .stable, t) ∧
        t.domains = #[⟨3, 7⟩] ∧ ¬ Honours ⟨0⟩ 3 ⟨0⟩ t) ∧
      ∃ t, (between ⟨0⟩ 3 ⟨1⟩).propagate.apply ⟨#[⟨0, 10⟩, ⟨0, 10⟩], #[], none⟩ =
          .ok (.ok .stable, t) ∧
        t.domains = #[⟨0, 7⟩, ⟨3, 10⟩] ∧ Honours ⟨0⟩ 3 ⟨1⟩ t := by
  refine ⟨⟨_, rfl, rfl, ?_⟩, ⟨_, rfl, rfl, ?_⟩⟩
  · rw [honours_iff (s := ⟨#[⟨0, 10⟩], #[], none⟩) (by decide) (by decide) (by decide) rfl]
    decide
  · rw [honours_iff (s := ⟨#[⟨0, 10⟩, ⟨0, 10⟩], #[], none⟩) (by decide) (by decide) (by decide) rfl]
    decide

/-- The first run takes the gap off both ends, and the second one would have to do so again. -/
theorem exists_not_honours :
    ¬ ∀ (s t : Store) (x y : Var) (gap : Int) (verdict : Verdict), s.Consistent → s.Has x → s.Has y →
      (between x gap y).propagate.apply s = .ok (.ok verdict, t) → Honours x gap y t := by
  intro hall
  have hhonours := hall ⟨#[⟨0, 10⟩], #[], none⟩ ⟨#[⟨3, 7⟩], #[⟨0⟩, ⟨0⟩], none⟩ ⟨0⟩ ⟨0⟩ 3 .stable
    (by decide) (by decide) (by decide) rfl
  obtain ⟨verdict, hagain⟩ := hhonours.again #[]
  have hfails : (between ⟨0⟩ 3 ⟨0⟩).propagate.apply ⟨#[⟨3, 7⟩], #[], none⟩ =
      .ok (.error ⟨⟨0⟩, 6, 4⟩, ⟨#[⟨6, 7⟩], #[⟨0⟩], some ⟨⟨0⟩, 6, 4⟩⟩) := rfl
  rw [hfails] at hagain
  cases hagain

end Precedence

end FiniteDomain
