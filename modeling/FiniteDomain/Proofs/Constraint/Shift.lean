import FiniteDomain.Constraint.NonOverlap
import FiniteDomain.Constraint.Precedence
import FiniteDomain.Proofs.Pruning

/-!
# Shifted bounds

A precedence and a side of a rectangle prune in the same way: the lower bound of the variable that
comes after follows the one that comes before, and then the upper bounds follow the other way round.
-/

namespace FiniteDomain

/-- Both bounds of `before`, moved by `gap`, stay below those of `after`. -/
def View.Shifted (V : View) (before : Var) (gap : Int) (after : Var) : Prop :=
  (V before).lb + gap ≤ (V after).lb ∧ (V before).ub + gap ≤ (V after).ub

theorem View.shifted_of_apart {V : View} {before after : Var} {gap : Int} (hV : V.Consistent)
    (hapart : (V before).ub + gap ≤ (V after).lb) : V.Shifted before gap after := by
  have hbefore := hV before
  have hafter := hV after
  unfold View.Shifted
  omega

namespace Update

/-- Moves the bounds of two variables, and says whether one changed. -/
def shift (before : Var) (gap : Int) (after : Var) : Update Bool := do
  let earliest ← read fun s => do Word.fit ((← s.lower before) + gap)
  let raised ← setLower after earliest
  let latest ← read fun s => do Word.fit ((← s.upper after) - gap)
  let lowered ← setUpper before latest
  return raised || lowered

variable {s : Store} {before after : Var} {gap : Int}

theorem fit_of_span {n : Int} (hgap : -Precedence.span ≤ gap ∧ gap ≤ Precedence.span)
    (hn : Word.minValue ≤ n ∧ n ≤ Word.maxValue) :
    Word.fit (n + gap) = .ok (n + gap) ∧ Word.fit (n - gap) = .ok (n - gap) := by
  simp only [Precedence.span, Word.minValue, Word.maxValue] at hgap hn
  constructor <;> apply Word.fit_of_mem <;> simp only [Word.least, Word.greatest] <;> omega

theorem fit_lower (hx : s.Has before) (hdomain : (s.view before).IsDomain)
    (hgap : -Precedence.span ≤ gap ∧ gap ≤ Precedence.span) :
    (do Word.fit ((← s.lower before) + gap)) = .ok ((s.view before).lb + gap) := by
  rw [Store.lower_of_has hx]
  exact (fit_of_span hgap (hdomain.mem_range hdomain.lb_mem)).1

theorem fit_upper (hx : s.Has after) (hdomain : (s.view after).IsDomain)
    (hgap : -Precedence.span ≤ gap ∧ gap ≤ Precedence.span) :
    (do Word.fit ((← s.upper after) - gap)) = .ok ((s.view after).ub - gap) := by
  rw [Store.upper_of_has hx]
  exact (fit_of_span hgap (hdomain.mem_range hdomain.ub_mem)).2

/-- A shift removes what no shifted view has, and leaves a shifted view unless the two variables are
the same. -/
theorem shift_prunes (hs : s.Consistent) (hbefore : s.Has before) (hafter : s.Has after)
    (hgap : -Precedence.span ≤ gap ∧ gap ≤ Precedence.span) :
    (shift before gap after).Prunes [before, after] (fun V => V.Shifted before gap after) s
      fun changed t =>
        (changed = false ↔ t.view = s.view) ∧
          (t.view = s.view → s.view.Shifted before gap after) ∧
          (before ≠ after → t.view.Shifted before gap after) := by
  unfold shift
  apply Prunes.read_bind (fit_lower hbefore (hs.isDomain before) hgap)
  refine Prunes.bind hs (Prunes.narrow hs hafter (by simp) ?_) ?_
  · intro V hV hshift hsV
    have hlower := (hsV before hbefore).1
    have hupper := (hsV after hafter).2
    have hgreatest := hs.greatest after
    simp only [Interval.le_iff, View.Shifted, Word.greatest, Word.maxValue] at *
    omega
  rintro raised t - ht ⟨rfl, hraised⟩
  have hbefore' := Store.has_cut (d := ⟨(s.view before).lb + gap, Word.greatest⟩) (x := after)
    |>.mpr hbefore
  have hafter' := Store.has_cut (d := ⟨(s.view before).lb + gap, Word.greatest⟩) (x := after)
    |>.mpr hafter
  apply Prunes.read_bind (fit_upper hafter' (ht.isDomain after) hgap)
  refine Prunes.bind ht (Prunes.narrow ht hbefore' (by simp) ?_) ?_
  · intro V hV hshift hsV
    have hlower := (hsV before hbefore').1
    have hupper := (hsV after hafter').2
    have hleast := ht.least before
    simp only [Interval.le_iff, View.Shifted, Word.least, Word.minValue] at *
    omega
  rintro lowered u - hu ⟨rfl, hlowered⟩
  refine Prunes.pure hu.failure ?_
  rw [Store.view_cut hbefore', Store.view_cut hafter, View.cut_cut_eq_self_iff]
  rw [Store.view_cut hafter] at hlowered
  refine ⟨?_, ?_, ?_⟩
  · rw [Bool.or_eq_false_iff, hraised, hlowered]
  · rintro ⟨hfirst, hsecond⟩
    rw [View.cut_eq_self_iff.mpr hfirst] at hsecond
    simp only [Interval.le_iff] at hfirst hsecond
    unfold View.Shifted
    omega
  · intro hne
    unfold View.Shifted
    rw [View.cut_self, View.cut_of_ne _ hne.symm, View.cut_of_ne _ hne, View.cut_self]
    simp only [Interval.lb_inter, Interval.ub_inter]
    have hleast := hs.least before
    simp only [Word.least, Word.minValue] at *
    omega

end Update

end FiniteDomain
