import FiniteDomain.Constraint.Disequality
import FiniteDomain.Proofs.Filtering

/-!
# Pruning by a disequality

A view is closed when a bound side does not have its value on a bound of the other side.  Pruning
one side may bind it and so give the other side a new value to avoid, hence a run ends in a closed
view only when it changes nothing, and the propagator makes no promise of idempotence.
-/

namespace FiniteDomain

/-- The value of `fixed`, if it has one, is not on a bound of `other`. -/
def View.Avoids (V : View) (fixed other : Var) : Prop :=
  (V fixed).lb = (V fixed).ub → (V other).lb ≠ (V fixed).lb ∧ (V other).ub ≠ (V fixed).lb

namespace Disequality

def Closed (c : Disequality) (V : View) : Prop :=
  V.Avoids c.a c.b ∧ V.Avoids c.b c.a

def Entailed (c : Disequality) (V : View) : Prop :=
  (V c.a).ub < (V c.b).lb ∨ (V c.b).ub < (V c.a).lb

instance (c : Disequality) (V : View) : Decidable (c.Entailed V) :=
  inferInstanceAs (Decidable (_ ∨ _))

/-- Cuts a value off the lower bound of a variable. -/
def trimLower (x : Var) (v : Int) : Update Unit := do
  if (← Update.read (·.lower x)) = v then
    discard <| Update.setLower x (← Update.read fun _ => Word.fit (v + 1))

/-- Cuts a value off the upper bound of a variable. -/
def trimUpper (x : Var) (v : Int) : Update Unit := do
  if (← Update.read (·.upper x)) = v then
    discard <| Update.setUpper x (← Update.read fun _ => Word.fit (v - 1))

theorem prune_eq (fixed other : Var) :
    prune fixed other = (do
      match ← Update.read (·.value? fixed) with
      | none => return ()
      | some v =>
        trimLower other v
        trimUpper other v) := by
  unfold prune trimLower trimUpper
  congr 1
  funext value
  cases value with
  | none => rfl
  | some v =>
      simp only [bind_assoc]
      congr 1
      funext bound
      split <;> simp

section Prune

variable {s : Store} {x fixed other : Var} {v : Int} {closed : View → Prop}

theorem fit_near (hv : Word.minValue ≤ v ∧ v ≤ Word.maxValue) :
    Word.fit (v + 1) = .ok (v + 1) ∧ Word.fit (v - 1) = .ok (v - 1) := by
  simp only [Word.minValue, Word.maxValue] at hv
  constructor <;> apply Word.fit_of_mem <;> simp only [Word.least, Word.greatest] <;> omega

theorem trimLower_prunes (hs : s.Consistent) (hx : s.Has x)
    (hv : Word.minValue ≤ v ∧ v ≤ Word.maxValue)
    (hclosed : ∀ V, V.Consistent → closed V → s.Encloses V → (V x).lb ≠ v) :
    (trimLower x v).Prunes [x] closed s fun _ t => t.view = s.view → (s.view x).lb ≠ v := by
  unfold trimLower
  apply Update.Prunes.read_bind (Store.lower_of_has hx)
  by_cases hbound : (s.view x).lb = v
  · rw [if_pos hbound]
    apply Update.Prunes.read_bind (f := fun _ => Word.fit (v + 1)) (fit_near hv).1
    apply Update.Prunes.discard
    refine (Update.Prunes.narrow hs hx (by simp) ?_).mono (fun _ => id) (fun _ => id) ?_
    · intro V hV hclosedV hsV
      have hne := hclosed V hV hclosedV hsV
      have hle := hsV x hx
      have hgreatest := hs.greatest x
      simp only [Interval.le_iff, Word.maxValue, Word.greatest] at *
      omega
    · rintro changed t - - ⟨rfl, -⟩ hsame
      rw [Store.view_cut hx, View.cut_eq_self_iff] at hsame
      have hlower := hsame.1
      dsimp only at hlower
      omega
  · rw [if_neg hbound]
    exact Update.Prunes.pure hs.failure fun _ => hbound

theorem trimUpper_prunes (hs : s.Consistent) (hx : s.Has x)
    (hv : Word.minValue ≤ v ∧ v ≤ Word.maxValue)
    (hclosed : ∀ V, V.Consistent → closed V → s.Encloses V → (V x).ub ≠ v) :
    (trimUpper x v).Prunes [x] closed s fun _ t => t.view = s.view → (s.view x).ub ≠ v := by
  unfold trimUpper
  apply Update.Prunes.read_bind (Store.upper_of_has hx)
  by_cases hbound : (s.view x).ub = v
  · rw [if_pos hbound]
    apply Update.Prunes.read_bind (f := fun _ => Word.fit (v - 1)) (fit_near hv).2
    apply Update.Prunes.discard
    refine (Update.Prunes.narrow hs hx (by simp) ?_).mono (fun _ => id) (fun _ => id) ?_
    · intro V hV hclosedV hsV
      have hne := hclosed V hV hclosedV hsV
      have hle := hsV x hx
      have hleast := hs.least x
      simp only [Interval.le_iff, Word.minValue, Word.least] at *
      omega
    · rintro changed t - - ⟨rfl, -⟩ hsame
      rw [Store.view_cut hx, View.cut_eq_self_iff] at hsame
      have hupper := hsame.2
      dsimp only at hupper
      omega
  · rw [if_neg hbound]
    exact Update.Prunes.pure hs.failure fun _ => hbound

theorem prune_prunes (hs : s.Consistent) (hfixed : s.Has fixed) (hother : s.Has other)
    (hclosed : ∀ V, closed V → V.Avoids fixed other) :
    (prune fixed other).Prunes [other] closed s fun _ t =>
      t.view = s.view → s.view.Avoids fixed other := by
  rw [prune_eq]
  apply Update.Prunes.read_bind (Store.value?_of_has hfixed)
  unfold Interval.value?
  by_cases hbound : (s.view fixed).lb = (s.view fixed).ub
  · rw [if_pos hbound]
    -- a closed view that the store encloses has the same value for `fixed`
    have havoid : ∀ V, V.Consistent → closed V → s.Encloses V →
        (V other).lb ≠ (s.view fixed).lb ∧ (V other).ub ≠ (s.view fixed).lb := by
      intro V hV hclosedV hsV
      have hle := hsV fixed hfixed
      have hne := hV fixed
      rw [Interval.le_iff] at hle
      have heq : (V fixed).lb = (s.view fixed).lb := by omega
      have havoids := hclosed V hclosedV (by omega)
      rwa [heq] at havoids
    have hv : Word.minValue ≤ (s.view fixed).lb ∧ (s.view fixed).lb ≤ Word.maxValue :=
      ⟨hs.least fixed, (hs.view fixed).trans (hs.greatest fixed)⟩
    refine Update.Prunes.bind hs (trimLower_prunes hs hother hv ?_) ?_
    · intro V hV hclosedV hsV
      exact (havoid V hV hclosedV hsV).1
    intro _ t hst ht hlower
    refine (trimUpper_prunes ht (hst.has_iff.mpr hother) hv ?_).mono (fun _ => id)
      (fun _ => id) ?_
    · intro V hV hclosedV htV
      exact (havoid V hV hclosedV (hst.encloses htV)).2
    · intro _ u htu _ hupper hsame _
      have hmiddle := hst.view_eq_of_view_eq htu hsame
      rw [hsame, hmiddle] at hupper
      exact ⟨hlower hmiddle, hupper rfl⟩
  · rw [if_neg hbound]
    exact Update.Prunes.pure hs.failure fun _ heq => absurd heq hbound

end Prune

theorem isEntailed_eq {c : Disequality} {s : Store} (ha : s.Has c.a) (hb : s.Has c.b) :
    c.isEntailed s = .ok (decide (c.Entailed s.view)) := by
  unfold isEntailed
  rw [Store.domain_of_has ha, Store.domain_of_has hb]
  simp only [bind, Except.bind, pure, Except.pure, Except.ok.injEq]
  rw [Bool.eq_iff_iff, decide_eq_true_iff]
  simp [Entailed]

theorem propagate_prunes {c : Disequality} {s : Store} (hs : s.Consistent) (ha : s.Has c.a)
    (hb : s.Has c.b) :
    c.propagate.Prunes [c.a, c.b] c.Closed s fun verdict t =>
      (t.view = s.view → c.Closed s.view) ∧ (verdict = .entailed ↔ c.Entailed t.view) := by
  unfold propagate
  have hfirstPrunes : (prune c.a c.b).Prunes [c.a, c.b] c.Closed s fun _ t =>
      t.view = s.view → s.view.Avoids c.a c.b := by
    have hleft : ∀ V, c.Closed V → V.Avoids c.a c.b := fun _ hV => hV.1
    have hprunes := prune_prunes hs ha hb hleft
    exact hprunes.mono (by simp) (fun _ => id) fun _ _ _ _ => id
  refine hfirstPrunes.bind hs ?_
  intro _ t hst ht hfirst
  have ha' := hst.has_iff.mpr ha
  have hb' := hst.has_iff.mpr hb
  have hsecondPrunes : (prune c.b c.a).Prunes [c.a, c.b] c.Closed t fun _ u =>
      u.view = t.view → t.view.Avoids c.b c.a := by
    have hright : ∀ V, c.Closed V → V.Avoids c.b c.a := fun _ hV => hV.2
    have hprunes := prune_prunes ht hb' ha' hright
    exact hprunes.mono (by simp) (fun _ => id) fun _ _ _ _ => id
  refine Update.Prunes.bind ht hsecondPrunes ?_
  intro _ u htu hu hsecond
  have hread := isEntailed_eq (htu.has_iff.mpr ha') (htu.has_iff.mpr hb')
  apply Update.Prunes.read_bind hread
  have hclosed : u.view = s.view → c.Closed s.view := by
    intro hsame
    have hmiddle := hst.view_eq_of_view_eq htu hsame
    rw [hsame, hmiddle] at hsecond
    exact ⟨hfirst hmiddle, hsecond rfl⟩
  by_cases hentailed : c.Entailed u.view
  · rw [if_pos (decide_eq_true hentailed)]
    exact Update.Prunes.pure hu.failure ⟨hclosed, by simp [hentailed]⟩
  · rw [if_neg (by simpa using hentailed)]
    exact Update.Prunes.pure hu.failure ⟨hclosed, by simp [hentailed]⟩

instance : Filtering Disequality where
  Closed := Closed
  Entailed := Entailed
  Admissible _ := True
  Settles _ := True
  prunes {c s} _ hs hhas := by
    have ha : s.Has c.a := hhas c.a (by simp [Propagator.watched])
    have hb : s.Has c.b := hhas c.b (by simp [Propagator.watched])
    refine (propagate_prunes hs ha hb).mono (fun _ => id) (fun _ => id) ?_
    rintro verdict t - - ⟨hsame, hverdict⟩
    exact ⟨fun heq => heq ▸ hsame heq, by simp [Propagator.idempotent], hverdict.mp⟩
  closed_congr {c V W} hsame hV := by
    have ha := hsame c.a (by simp [Propagator.watched])
    have hb := hsame c.b (by simp [Propagator.watched])
    unfold Closed View.Avoids at *
    rw [← ha, ← hb]
    exact hV
  entailed_anti {c V W} hle hV := by
    have ha := hle c.a (by simp [Propagator.watched])
    have hb := hle c.b (by simp [Propagator.watched])
    simp only [Entailed, Interval.le_iff] at *
    omega
  closed_of_entailed {c V} hV hentailed := by
    have ha := hV c.a
    have hb := hV c.b
    unfold Entailed at hentailed
    unfold Closed View.Avoids
    omega

theorem closed_ofValues_iff {c : Disequality} {value : Var → Int} :
    Filtering.Closed c (View.ofValues value) ↔ c.Holds value := by
  change (View.Avoids _ _ _ ∧ View.Avoids _ _ _) ↔ _
  simp only [View.Avoids, View.ofValues, Interval.singleton, Holds, true_implies]
  constructor
  · rintro ⟨-, hne, -⟩
    exact hne
  · intro hne
    exact ⟨⟨hne.symm, hne.symm⟩, ⟨hne, hne⟩⟩

end Disequality

end FiniteDomain
