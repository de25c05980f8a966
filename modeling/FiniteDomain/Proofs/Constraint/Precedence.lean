import FiniteDomain.Proofs.Constraint.Shift
import FiniteDomain.Proofs.Filtering

/-!
# Pruning by a precedence

The closed views of a precedence are the shifted ones.  One run reaches such a view when the two
variables differ.  Of a variable that has to precede itself, a run only removes as much as the gap.
-/

namespace FiniteDomain

namespace Precedence

def Entailed (c : Precedence) (V : View) : Prop :=
  (V c.x).ub + c.gap ≤ (V c.y).lb

/-- The gap has been cut to the span of the values. -/
def Admissible (c : Precedence) : Prop :=
  -span ≤ c.gap ∧ c.gap ≤ span

theorem admissible_between (x : Var) (gap : Int) (y : Var) : (between x gap y).Admissible := by
  unfold Admissible between
  simp only [span, Word.maxValue]
  omega

/-- On values that domains may hold, the cut of the gap makes no difference. -/
theorem between_gap_le_iff {x y : Var} {gap a b : Int}
    (ha : Word.minValue ≤ a ∧ a ≤ Word.maxValue)
    (hb : Word.minValue ≤ b ∧ b ≤ Word.maxValue) :
    a + (between x gap y).gap ≤ b ↔ a + gap ≤ b := by
  simp only [between, span, Word.minValue, Word.maxValue] at *
  omega

instance (c : Precedence) (V : View) : Decidable (c.Entailed V) :=
  inferInstanceAs (Decidable (_ ≤ _))

theorem isEntailed_eq {c : Precedence} {s : Store} (hx : s.Has c.x) (hy : s.Has c.y)
    (hdomain : (s.view c.x).IsDomain) (hgap : c.Admissible) :
    c.isEntailed s = .ok (decide (c.Entailed s.view)) := by
  have hfit := (Update.fit_of_span hgap (hdomain.mem_range hdomain.ub_mem)).1
  unfold isEntailed
  rw [Store.upper_of_has hx, Store.lower_of_has hy]
  simp only [bind, Except.bind, hfit]
  rfl

theorem propagate_eq (c : Precedence) :
    c.propagate = do
      let _ ← Update.shift c.x c.gap c.y
      if ← Update.read c.isEntailed then return .entailed else return .stable := by
  unfold propagate Update.shift
  simp only [Update.discard_bind, bind_assoc]
  simp

/-- What a run removes, no shifted view has.  What it leaves is shifted, unless the variables are the
same. -/
theorem propagate_prunes {c : Precedence} {s : Store} (hgap : c.Admissible) (hs : s.Consistent)
    (hx : s.Has c.x) (hy : s.Has c.y) :
    c.propagate.Prunes [c.x, c.y] (fun V => V.Shifted c.x c.gap c.y) s fun verdict t =>
      (t.view = s.view → s.view.Shifted c.x c.gap c.y) ∧
        (c.x ≠ c.y → t.view.Shifted c.x c.gap c.y) ∧
        (verdict = .entailed ↔ c.Entailed t.view) := by
  rw [propagate_eq]
  refine Update.Prunes.bind hs (Update.shift_prunes hs hx hy hgap) ?_
  rintro changed t hst ht ⟨-, hsame, hshifted⟩
  have hread := isEntailed_eq (hst.has_iff.mpr hx) (hst.has_iff.mpr hy) (ht.isDomain c.x) hgap
  apply Update.Prunes.read_bind hread
  by_cases hentailed : c.Entailed t.view
  · rw [if_pos (decide_eq_true hentailed)]
    exact Update.Prunes.pure ht.failure ⟨hsame, hshifted, by simp [hentailed]⟩
  · rw [if_neg (by simpa using hentailed)]
    exact Update.Prunes.pure ht.failure ⟨hsame, hshifted, by simp [hentailed]⟩

instance : Filtering Precedence where
  Closed c V := V.Shifted c.x c.gap c.y
  Entailed := Entailed
  Admissible := Admissible
  Settles c := c.x ≠ c.y
  prunes {c s} hgap hs hhas := by
    have hx : s.Has c.x := hhas c.x (by simp [Propagator.watched])
    have hy : s.Has c.y := hhas c.y (by simp [Propagator.watched])
    refine (propagate_prunes hgap hs hx hy).mono (fun _ => id) (fun _ => id) ?_
    rintro verdict t - - ⟨hsame, hshifted, hverdict⟩
    exact ⟨fun heq => heq ▸ hsame heq, fun _ => hshifted, hverdict.mp⟩
  closed_congr {c V W} hsame hV := by
    have hx := hsame c.x (by simp [Propagator.watched])
    have hy := hsame c.y (by simp [Propagator.watched])
    unfold View.Shifted at *
    rw [← hx, ← hy]
    exact hV
  entailed_anti {c V W} hle hV := by
    have hx := (hle c.x (by simp [Propagator.watched])).2
    have hy := (hle c.y (by simp [Propagator.watched])).1
    unfold Entailed at *
    omega
  closed_of_entailed hV hentailed := View.shifted_of_apart hV hentailed

theorem closed_ofValues_iff {c : Precedence} {value : Var → Int} :
    Filtering.Closed c (View.ofValues value) ↔ c.Holds value := by
  change (_ ∧ _) ↔ _
  simp [View.ofValues, Interval.singleton, Holds]

end Precedence

end FiniteDomain
