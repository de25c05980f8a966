import FiniteDomain.Update
import Mathlib.Tactic

/-!
# Views

What a propagator sees of a store is the domain of each variable.  A view holds just that, without
the record of changes and without the failure.  Views are ordered by inclusion of their domains, so
that narrowing a store is descent in that order.

A consistent store is one that the solver works on: it is not failed, and each domain has a value and
lies within the values that a domain may hold.
-/

namespace FiniteDomain

namespace Interval

/-- An interval is below another when its bounds lie between the bounds of the other. -/
instance : PartialOrder Interval where
  le d e := e.lb ≤ d.lb ∧ d.ub ≤ e.ub
  le_refl _ := ⟨le_rfl, le_rfl⟩
  le_trans _ _ _ hde hef := ⟨hef.1.trans hde.1, hde.2.trans hef.2⟩
  le_antisymm d e hde hed := by
    rcases d with ⟨dl, du⟩
    rcases e with ⟨el, eu⟩
    simp only [Interval.mk.injEq] at *
    omega

theorem le_iff {d e : Interval} : d ≤ e ↔ e.lb ≤ d.lb ∧ d.ub ≤ e.ub :=
  Iff.rfl

@[simp]
theorem lb_inter (d e : Interval) : (d.inter e).lb = max d.lb e.lb :=
  rfl

@[simp]
theorem ub_inter (d e : Interval) : (d.inter e).ub = min d.ub e.ub :=
  rfl

theorem inter_le_left (d e : Interval) : d.inter e ≤ d := by
  simp only [le_iff, lb_inter, ub_inter]
  omega

theorem le_inter {c d e : Interval} (hd : c ≤ d) (he : c ≤ e) : c ≤ d.inter e := by
  simp only [le_iff, lb_inter, ub_inter] at *
  omega

theorem inter_eq_left_iff {d e : Interval} : d.inter e = d ↔ d ≤ e := by
  rcases d with ⟨dl, du⟩
  rcases e with ⟨el, eu⟩
  simp only [inter, Interval.mk.injEq, le_iff]
  omega

/-- The interval has a value, and all its values may be held by a domain. -/
structure IsDomain (d : Interval) : Prop where
  least : Word.minValue ≤ d.lb
  nonempty : d.lb ≤ d.ub
  greatest : d.ub ≤ Word.maxValue

namespace IsDomain

variable {d : Interval}

instance : DecidablePred IsDomain := fun d =>
  decidable_of_iff (Word.minValue ≤ d.lb ∧ d.lb ≤ d.ub ∧ d.ub ≤ Word.maxValue)
    ⟨fun h => ⟨h.1, h.2.1, h.2.2⟩, fun h => ⟨h.least, h.nonempty, h.greatest⟩⟩

theorem mem_range {value : Int} (hd : d.IsDomain) (hvalue : value ∈ d) :
    Word.minValue ≤ value ∧ value ≤ Word.maxValue :=
  ⟨hd.least.trans hvalue.1, hvalue.2.trans hd.greatest⟩

theorem lb_mem (hd : d.IsDomain) : d.lb ∈ d :=
  ⟨le_rfl, hd.nonempty⟩

theorem ub_mem (hd : d.IsDomain) : d.ub ∈ d :=
  ⟨hd.nonempty, le_rfl⟩

theorem of_le {e : Interval} (hd : d.IsDomain) (hle : e ≤ d) (hne : e.lb ≤ e.ub) : e.IsDomain :=
  ⟨hd.least.trans hle.1, hne, hle.2.trans hd.greatest⟩

end IsDomain

theorem singleton_le_iff {value : Int} {d : Interval} : singleton value ≤ d ↔ value ∈ d :=
  Iff.rfl

end Interval

/-- A domain for each variable. -/
abbrev View := Var → Interval

namespace View

/-- Every variable has a value left. -/
def Consistent (V : View) : Prop :=
  ∀ x, (V x).lb ≤ (V x).ub

/-- The view with the domain of one variable cut to an interval. -/
def cut (V : View) (x : Var) (d : Interval) : View :=
  fun y => if y = x then (V x).inter d else V y

@[simp]
theorem cut_self (V : View) (x : Var) (d : Interval) : V.cut x d x = (V x).inter d := by
  simp [cut]

theorem cut_of_ne (V : View) {x y : Var} (hne : y ≠ x) (d : Interval) : V.cut x d y = V y := by
  simp [cut, hne]

theorem cut_le (V : View) (x : Var) (d : Interval) : V.cut x d ≤ V := by
  intro y
  by_cases hyx : y = x
  · subst hyx
    rw [cut_self]
    exact Interval.inter_le_left _ _
  · rw [cut_of_ne V hyx]

theorem le_cut {V W : View} {x y : Var} {d : Interval} (hle : V y ≤ W y)
    (hd : y = x → V y ≤ d) : V y ≤ W.cut x d y := by
  by_cases hyx : y = x
  · subst hyx
    rw [cut_self]
    exact Interval.le_inter hle (hd rfl)
  · rw [cut_of_ne W hyx]
    exact hle

theorem cut_eq_self_iff {V : View} {x : Var} {d : Interval} : V.cut x d = V ↔ V x ≤ d := by
  constructor
  · intro heq
    have hx := congrFun heq x
    rw [cut_self] at hx
    exact Interval.inter_eq_left_iff.mp hx
  · intro hle
    funext y
    by_cases hyx : y = x
    · subst hyx
      rw [cut_self]
      exact Interval.inter_eq_left_iff.mpr hle
    · exact cut_of_ne V hyx d

theorem cut_cut_eq_self_iff {V : View} {x y : Var} {d e : Interval} :
    (V.cut x d).cut y e = V ↔ V x ≤ d ∧ V.cut x d y ≤ e := by
  constructor
  · intro heq
    have hfirst : V.cut x d = V := by
      apply le_antisymm (cut_le V x d)
      calc
        V = (V.cut x d).cut y e := heq.symm
        _ ≤ V.cut x d := cut_le _ y e
    refine ⟨cut_eq_self_iff.mp hfirst, ?_⟩
    rw [hfirst] at heq ⊢
    exact cut_eq_self_iff.mp heq
  · rintro ⟨hd, he⟩
    have hfirst := cut_eq_self_iff.mpr hd
    rw [hfirst] at he ⊢
    exact cut_eq_self_iff.mpr he

/-- The view in which each variable has the value of an assignment, and no other. -/
def ofValues (value : Var → Int) : View :=
  fun x => .singleton (value x)

theorem consistent_ofValues (value : Var → Int) : (ofValues value).Consistent :=
  fun _ => le_rfl

end View

/-- The domains of a table.  A variable without an entry counts as bound. -/
def Table.view (t : Table Interval) : View :=
  fun x => t[x.index]?.getD ⟨0, 0⟩

namespace Store

/-- Is the variable one of the store? -/
def Has (s : Store) (x : Var) : Prop :=
  x.index < s.domains.size

instance (s : Store) (x : Var) : Decidable (s.Has x) :=
  inferInstanceAs (Decidable (x.index < s.domains.size))

def view (s : Store) : View :=
  s.domains.view

/-- The domains of the variables of a store contain those of a view. -/
def Encloses (s : Store) (V : View) : Prop :=
  ∀ x, s.Has x → V x ≤ s.view x

/-- The values of an assignment lie in the domains of a store. -/
def Allows (s : Store) (value : Var → Int) : Prop :=
  ∀ x d, s.domain x = .ok d → value x ∈ d

/-- Nothing has failed, and each domain has a value and lies within the range of values. -/
structure Consistent (s : Store) : Prop where
  failure : s.failure = none
  view : s.view.Consistent
  least : ∀ x, Word.minValue ≤ (s.view x).lb
  greatest : ∀ x, (s.view x).ub ≤ Word.maxValue

/-- Neither the domains nor the failure depend on what is recorded. -/
theorem Consistent.withChanges {s : Store} (hs : s.Consistent) (changes : Array Var) :
    Store.Consistent { s with changes } where
  failure := hs.failure
  view := hs.view
  least := hs.least
  greatest := hs.greatest

theorem Consistent.isDomain {s : Store} (hs : s.Consistent) (x : Var) : (s.view x).IsDomain :=
  ⟨hs.least x, hs.view x, hs.greatest x⟩

section Reading

variable {s : Store} {x : Var}

theorem domain_of_has (hx : s.Has x) : s.domain x = .ok (s.view x) := by
  unfold domain
  rw [Table.fetch_eq_ok_iff]
  unfold Store.view Table.view
  have hlt : x.index < s.domains.size := hx
  simp [hlt]

theorem domain_eq_ok_iff {d : Interval} : s.domain x = .ok d ↔ s.Has x ∧ s.view x = d := by
  constructor
  · intro hd
    have hx : s.Has x := by
      unfold domain at hd
      rw [Table.fetch_eq_ok_iff, Array.getElem?_eq_some_iff] at hd
      exact hd.1
    rw [domain_of_has hx, Except.ok.injEq] at hd
    exact ⟨hx, hd⟩
  · rintro ⟨hx, rfl⟩
    exact domain_of_has hx

theorem lower_of_has (hx : s.Has x) : s.lower x = .ok (s.view x).lb := by
  unfold lower
  rw [domain_of_has hx]
  rfl

theorem upper_of_has (hx : s.Has x) : s.upper x = .ok (s.view x).ub := by
  unfold upper
  rw [domain_of_has hx]
  rfl

theorem value?_of_has (hx : s.Has x) : s.value? x = .ok (s.view x).value? := by
  unfold Store.value?
  rw [domain_of_has hx]
  rfl

theorem value?_eq_some_iff {v : Int} :
    s.value? x = .ok (some v) ↔ s.Has x ∧ s.view x = .singleton v := by
  constructor
  · intro h
    rcases Fault.bind_eq_ok_iff.mp h with ⟨d, hd, hv⟩
    rcases domain_eq_ok_iff.mp hd with ⟨hx, hview⟩
    refine ⟨hx, ?_⟩
    rcases d with ⟨lb, ub⟩
    simp only [pure, Except.pure, Except.ok.injEq, Interval.value?] at hv
    split at hv
    · rename_i hsame
      rw [Option.some.injEq] at hv
      rw [hview, ← hsame, hv]
      rfl
    · contradiction
  · rintro ⟨hx, hview⟩
    rw [value?_of_has hx, hview]
    simp [Interval.value?, Interval.singleton]

theorem allows_iff {value : Var → Int} : s.Allows value ↔ s.Encloses (View.ofValues value) := by
  constructor
  · intro h x hx
    exact Interval.singleton_le_iff.mpr (h x _ (domain_of_has hx))
  · intro h x d hd
    rcases domain_eq_ok_iff.mp hd with ⟨hx, rfl⟩
    exact Interval.singleton_le_iff.mp (h x hx)

theorem allows_iff_getElem {value : Var → Int} :
    s.Allows value ↔ ∀ k, ∀ hk : k < s.domains.size, value ⟨k⟩ ∈ s.domains[k] := by
  constructor
  · intro h k hk
    exact h ⟨k⟩ _ (Table.fetch_eq_ok_iff.mpr (Array.getElem?_eq_getElem hk))
  · intro h x d hd
    rcases Array.getElem?_eq_some_iff.mp (Table.fetch_eq_ok_iff.mp hd) with ⟨hk, rfl⟩
    exact h x.index hk

instance (s : Store) (value : Var → Int) : Decidable (s.Allows value) :=
  decidable_of_iff _ allows_iff_getElem.symm

theorem consistent_iff : s.Consistent ↔ s.failure = none ∧
    ∀ d ∈ s.domains, Word.minValue ≤ d.lb ∧ d.lb ≤ d.ub ∧ d.ub ≤ Word.maxValue := by
  constructor
  · intro hs
    refine ⟨hs.failure, ?_⟩
    intro d hd
    obtain ⟨k, hk, rfl⟩ := Array.mem_iff_getElem.mp hd
    have hview : s.view ⟨k⟩ = s.domains[k] := by
      simp [Store.view, Table.view, hk]
    rw [← hview]
    exact ⟨hs.least _, hs.view _, hs.greatest _⟩
  · rintro ⟨hfailure, hdomains⟩
    have hall : ∀ x, Word.minValue ≤ (s.view x).lb ∧ (s.view x).lb ≤ (s.view x).ub ∧
        (s.view x).ub ≤ Word.maxValue := by
      intro x
      by_cases hx : s.Has x
      · have hmem : s.view x ∈ s.domains :=
          Array.mem_of_getElem? (Table.fetch_eq_ok_iff.mp (domain_of_has hx))
        exact hdomains _ hmem
      · have hview : s.view x = ⟨0, 0⟩ := by
          unfold Store.view Table.view
          rw [Array.getElem?_eq_none (not_lt.mp hx), Option.getD_none]
        rw [hview]
        decide
    exact ⟨hfailure, fun x => (hall x).2.1, fun x => (hall x).1, fun x => (hall x).2.2⟩

instance (s : Store) : Decidable s.Consistent :=
  decidable_of_iff _ consistent_iff.symm

end Reading

/-- The store after a narrowing that leaves a value.  A change of the domain is recorded. -/
def cut (s : Store) (x : Var) (d : Interval) : Store :=
  let next := (s.view x).inter d
  if next = s.view x then
    s
  else
    { s with
      domains := s.domains.setIfInBounds x.index next
      changes := s.changes.push x }

section Cut

variable {s : Store} {x : Var} {d : Interval}

theorem cut_of_le (hle : s.view x ≤ d) : s.cut x d = s := by
  unfold cut
  rw [if_pos (Interval.inter_eq_left_iff.mpr hle)]

@[simp]
theorem failure_cut : (s.cut x d).failure = s.failure := by
  unfold cut
  dsimp only
  split <;> rfl

@[simp]
theorem size_cut : (s.cut x d).domains.size = s.domains.size := by
  unfold cut
  dsimp only
  split <;> simp

theorem has_cut {y : Var} : (s.cut x d).Has y ↔ s.Has y := by
  unfold Has
  rw [size_cut]

theorem view_cut (hx : s.Has x) : (s.cut x d).view = s.view.cut x d := by
  by_cases hle : s.view x ≤ d
  · rw [cut_of_le hle, View.cut_eq_self_iff.mpr hle]
  · have hne : ¬ (s.view x).inter d = s.view x := by
      rw [Interval.inter_eq_left_iff]
      exact hle
    have hlt : x.index < s.domains.size := hx
    funext y
    unfold cut
    rw [if_neg hne]
    simp only [Store.view, Table.view, View.cut, Array.getElem?_setIfInBounds]
    by_cases hyx : y = x
    · subst hyx
      simp [hlt]
    · have hindex : ¬ x.index = y.index := fun heq => hyx (Var.index_inj.mp heq).symm
      simp [hyx, hindex]

theorem Encloses.cut {V : View} (h : s.Encloses V) (hx : s.Has x) (hd : V x ≤ d) :
    (s.cut x d).Encloses V := by
  intro y hy
  rw [view_cut hx]
  apply View.le_cut (h y (has_cut.mp hy))
  rintro rfl
  exact hd

theorem narrow_of_has (hs : s.failure = none) (hx : s.Has x) (lb ub : Int) :
    s.narrow x lb ub =
      let next := (s.view x).inter ⟨lb, ub⟩
      if next.isEmpty then
        .ok (.error ⟨x, next.lb, next.ub⟩, { s with failure := some ⟨x, next.lb, next.ub⟩ })
      else
        .ok (.ok (decide (next ≠ s.view x)), s.cut x ⟨lb, ub⟩) := by
  have hfetch : s.domains.fetch x.index = .ok (s.view x) := domain_of_has hx
  unfold narrow cut
  simp only [hs, hfetch]
  split
  · rfl
  · split <;> simp_all

theorem narrow_eq_ok_of_failure_eq_none {reply : Except Wipeout Bool} {t : Store} {lb ub : Int}
    (hs : s.failure = none) (h : s.narrow x lb ub = .ok (reply, t)) : s.Has x := by
  unfold narrow at h
  rw [hs] at h
  simp only at h
  cases hfetch : s.domains.fetch x.index with
  | error f => simp [hfetch] at h
  | ok current => exact (domain_eq_ok_iff.mp hfetch).1

end Cut

end Store

end FiniteDomain
