import FiniteDomain.Proofs.Constraint.NonOverlap

/-!
# Supported bounds

The bounds that non-overlap leaves are not too wide.  A value of a domain is supported for a pair of
rectangles when it can be completed by values of the other domains so that the pair does not overlap.
In a closed view the bounds of every domain are supported for each pair of rectangles, provided that
the positions are different variables.  If two sides are possible, one of them at least suits the bound;
if there is one, its variables are shifted, and all lower bounds together keep the pair apart, as all
upper bounds do.

For two rectangles alone this means that the domains are the smallest box around their placements.
-/

namespace FiniteDomain

/-- The domains of the store are the smallest box around certain assignments. -/
structure Store.IsHull (t : Store) (placed : (Var → Int) → Prop) : Prop where
  contains : ∀ value, placed value → t.Allows value
  least : ∀ V : View, (∀ value, placed value → ∀ x, t.Has x → value x ∈ V x) →
    ∀ x, t.Has x → t.view x ≤ V x

namespace Side

variable {side other : Side} {i j : Rectangle} {V : View} {x : Var} {v : Int}

theorem before_injective (hdistinct : ([i.x, i.y] ++ [j.x, j.y]).Nodup)
    (h : side.before i j = other.before i j) : side = other := by
  cases side <;> cases other <;> simp_all [before, terms]

theorem after_injective (hdistinct : ([i.x, i.y] ++ [j.x, j.y]).Nodup)
    (h : side.after i j = other.after i j) : side = other := by
  cases side <;> cases other <;> simp_all [after, terms]

theorem before_ne_after (side : Side) (hdistinct : ([i.x, i.y] ++ [j.x, j.y]).Nodup) :
    side.before i j ≠ side.after i j := by
  cases side <;> simp_all [before, after, terms, Ne.symm]

/-- As far as the value matters for the side, it is the one that suits it best. -/
def Suits (side : Side) (i j : Rectangle) (V : View) (x : Var) (v : Int) : Prop :=
  (x = side.before i j → v = (V x).lb) ∧ (x = side.after i j → v = (V x).ub)

/-- A bound that does not suit one side suits any other. -/
theorem suits_or_suits (hdistinct : ([i.x, i.y] ++ [j.x, j.y]).Nodup) (hne : side ≠ other)
    (hv : v = (V x).lb ∨ v = (V x).ub) : side.Suits i j V x v ∨ other.Suits i j V x v := by
  rcases hv with hv | hv
  · by_cases hx : x = side.after i j
    · right
      refine ⟨fun _ => hv, fun hother => ?_⟩
      exact absurd (after_injective hdistinct (hx.symm.trans hother)) hne
    · exact Or.inl ⟨fun _ => hv, fun hside => absurd hside hx⟩
  · by_cases hx : x = side.before i j
    · right
      refine ⟨fun hother => ?_, fun _ => hv⟩
      exact absurd (before_injective hdistinct (hx.symm.trans hother)) hne
    · exact Or.inl ⟨fun hside => absurd hside hx, fun _ => hv⟩

end Side

namespace NonOverlap

section Pair

variable {i j : Rectangle} {V : View} {x : Var} {v : Int}

/-- There are values in the domains that have `v` for `x` and keep the pair apart. -/
def Supported (i j : Rectangle) (V : View) (x : Var) (v : Int) : Prop :=
  ∃ value, View.ofValues value ≤ V ∧ value x = v ∧ i.IsApartFrom j value

theorem supported_of_suits {side : Side} (hV : V.Consistent)
    (hdistinct : ([i.x, i.y] ++ [j.x, j.y]).Nodup) (hside : side.Possible i j V) (hv : v ∈ V x)
    (hsuits : side.Suits i j V x v) : Supported i j V x v := by
  have hne := side.before_ne_after hdistinct
  let value : Var → Int := fun y =>
    if y = x then v else if y = side.before i j then (V y).lb else (V y).ub
  have hbefore : value (side.before i j) = (V (side.before i j)).lb := by
    by_cases hx : side.before i j = x
    · have hlower := hsuits.1 hx.symm
      simp [value, hx, hlower]
    · simp [value, hx]
  have hafter : value (side.after i j) = (V (side.after i j)).ub := by
    by_cases hx : side.after i j = x
    · have hupper := hsuits.2 hx.symm
      simp [value, hx, hupper]
    · simp [value, hx, hne.symm]
  refine ⟨value, ?_, by simp [value], Side.exists_possible_iff.mp ⟨side, ?_⟩⟩
  · intro y
    refine Interval.singleton_le_iff.mpr ?_
    have hle := hV y
    by_cases hyx : y = x
    · simpa [value, hyx] using hv
    · by_cases hy : y = side.before i j
      · rw [hy, hbefore, ← hy]
        exact ⟨le_rfl, hle⟩
      · have hupper : value y = (V y).ub := by simp [value, hyx, hy]
        rw [hupper]
        exact ⟨hle, le_rfl⟩
  · change value (side.before i j) + side.gap i j ≤ value (side.after i j)
    rw [hbefore, hafter]
    exact hside

theorem supported_of_shifted {side : Side} (hV : V.Consistent)
    (hshift : V.Shifted (side.before i j) (side.gap i j) (side.after i j))
    (hv : v = (V x).lb ∨ v = (V x).ub) : Supported i j V x v := by
  rcases hv with hv | hv
  · refine ⟨fun y => (V y).lb, fun y => ⟨le_rfl, hV y⟩, hv.symm, ?_⟩
    exact Side.exists_possible_iff.mp ⟨side, hshift.1⟩
  · refine ⟨fun y => (V y).ub, fun y => ⟨hV y, le_rfl⟩, hv.symm, ?_⟩
    exact Side.exists_possible_iff.mp ⟨side, hshift.2⟩

theorem PairClosed.supported (hclosed : PairClosed i j V) (hV : V.Consistent)
    (hdistinct : ([i.x, i.y] ++ [j.x, j.y]).Nodup) (hv : v = (V x).lb ∨ v = (V x).ub) :
    Supported i j V x v := by
  have hmem : v ∈ V x := by
    have hle := hV x
    rw [Interval.mem_iff]
    omega
  have hpossible : ∀ side ∈ Side.remaining i j V, side.Possible i j V :=
    fun side => Side.mem_remaining.mp
  unfold PairClosed at hclosed
  cases hremaining : Side.remaining i j V with
  | nil =>
      rw [hremaining] at hclosed
      contradiction
  | cons first others =>
      rw [hremaining] at hclosed hpossible
      cases others with
      | nil => exact supported_of_shifted hV hclosed hv
      | cons second rest =>
          have hnodup : (Side.remaining i j V).Nodup := List.Nodup.filter _ (by decide)
          rw [hremaining] at hnodup
          have hne : first ≠ second := by
            intro hsame
            rw [hsame] at hnodup
            simp at hnodup
          rcases Side.suits_or_suits hdistinct hne hv with hsuits | hsuits
          · exact supported_of_suits hV hdistinct (hpossible first (by simp)) hmem hsuits
          · exact supported_of_suits hV hdistinct (hpossible second (by simp)) hmem hsuits

end Pair

section Run

variable {c : NonOverlap} {s t : Store} {i j : Rectangle} {reply : Except Wipeout Verdict}

theorem nodup_of_mem_pairs (hdistinct : (Propagator.watched c).Nodup)
    {pair : Rectangle × Rectangle} (hpair : pair ∈ c.pairs) :
    ([pair.1.x, pair.1.y] ++ [pair.2.x, pair.2.y]).Nodup := by
  have hsub := (mem_pairsOf_iff.mp hpair).flatMap fun r => [r.x, r.y]
  exact hdistinct.sublist hsub

/-- The values lie in the domains of the store, and no two of the rectangles overlap for them. -/
def Places (c : NonOverlap) (s : Store) (value : Var → Int) : Prop :=
  s.Allows value ∧ c.Holds value

/-- What a run achieves that starts on `s` and ends with `reply` on `t`. -/
structure Tight (c : NonOverlap) (s : Store) (reply : Except Wipeout Verdict) (t : Store) :
    Prop where
  keeps : ∀ value, c.Places s value → t.Allows value ∧ ∃ verdict, reply = .ok verdict
  supported : (Propagator.watched c).Nodup → ∀ verdict, reply = .ok verdict →
    c.rectangles.Pairwise fun i j => ∀ x v, v = (t.view x).lb ∨ v = (t.view x).ub →
      ∃ value, t.Allows value ∧ value x = v ∧ i.IsApartFrom j value
  fails_iff : (Propagator.watched c).Nodup → ∀ i j, c.rectangles = [i, j] →
    ((∃ w, reply = .error w) ↔ ¬ ∃ value, c.Places s value)
  hull : (Propagator.watched c).Nodup → ∀ i j, c.rectangles = [i, j] →
    ∀ verdict, reply = .ok verdict → t.IsHull (c.Places s)

theorem places_of_effect (heffect : Update.Effect (Propagator.watched c) c.Closed s reply t)
    {value : Var → Int} (hvalue : c.Places s value) :
    t.Allows value ∧ ∃ verdict, reply = .ok verdict := by
  have hclosed : c.Closed (View.ofValues value) := closed_ofValues_iff.mpr hvalue.2
  obtain ⟨hreply, hleft⟩ := heffect.keeps _ (View.consistent_ofValues value) hclosed
    (Store.allows_iff.mp hvalue.1)
  exact ⟨Store.allows_iff.mpr hleft, hreply⟩

theorem pairs_of_two (hpair : c.rectangles = [i, j]) : c.pairs = [(i, j)] := by
  unfold pairs
  rw [hpair]
  rfl

/-- Values left that keep the only pair apart are a placement. -/
theorem Supported.places (hst : s.Narrowing t) (hpair : c.rectangles = [i, j]) {x : Var} {v : Int}
    (hv : Supported i j t.view x v) : ∃ value, c.Places s value ∧ value x = v := by
  obtain ⟨value, hle, hx, hapart⟩ := hv
  have hleft : t.Encloses (View.ofValues value) := fun y _ => hle y
  refine ⟨value, ⟨Store.allows_iff.mpr (hst.encloses hleft), ?_⟩, hx⟩
  unfold NonOverlap.Holds
  rw [hpair]
  exact List.pairwise_pair.mpr hapart

theorem isHull_of_supported (hst : s.Narrowing t) (hpair : c.rectangles = [i, j])
    (hkeeps : ∀ value, c.Places s value → t.Allows value)
    (hsupported : ∀ x v, v = (t.view x).lb ∨ v = (t.view x).ub → Supported i j t.view x v) :
    t.IsHull (c.Places s) where
  contains := hkeeps
  least V hV x hx := by
    obtain ⟨least, hleast, hlb⟩ := (hsupported x _ (Or.inl rfl)).places hst hpair
    obtain ⟨greatest, hgreatest, hub⟩ := (hsupported x _ (Or.inr rfl)).places hst hpair
    have hlower := (hV least hleast x hx).1
    have hupper := (hV greatest hgreatest x hx).2
    rw [hlb] at hlower
    rw [hub] at hupper
    exact ⟨hlower, hupper⟩

/-- A run loses no placement and leaves supported bounds only. -/
theorem propagate_tight (hs : s.Consistent) (hhas : ∀ x ∈ Propagator.watched c, s.Has x) :
    ∃ reply t, c.propagate.apply s = .ok (reply, t) ∧ c.Tight s reply t := by
  obtain ⟨reply, t, happly, heffect, hpost⟩ := propagate_prunes hs hhas
  have hsupported : (Propagator.watched c).Nodup → ∀ verdict, reply = .ok verdict →
      ∀ pair ∈ c.pairs, ∀ x v, v = (t.view x).lb ∨ v = (t.view x).ub →
        Supported pair.1 pair.2 t.view x v := by
    rintro hdistinct verdict rfl pair hpair x v hv
    have hclosed := (hpost verdict rfl).1 pair hpair
    exact hclosed.supported (heffect.consistent hs).view (nodup_of_mem_pairs hdistinct hpair) hv
  have honly : ∀ i j, c.rectangles = [i, j] → (i, j) ∈ c.pairs := by
    intro i j hpair
    rw [pairs_of_two hpair]
    exact List.mem_singleton_self _
  refine ⟨reply, t, happly, fun value => places_of_effect heffect, ?_, ?_, ?_⟩
  · intro hdistinct verdict hreply
    apply pairwise_iff.mpr
    intro pair hpair x v hv
    obtain ⟨value, hle, hx, hapart⟩ := hsupported hdistinct verdict hreply pair hpair x v hv
    exact ⟨value, Store.allows_iff.mpr fun y _ => hle y, hx, hapart⟩
  · intro hdistinct i j hpair
    constructor
    · rintro ⟨w, rfl⟩ ⟨value, hvalue⟩
      obtain ⟨-, verdict, hreply⟩ := places_of_effect heffect hvalue
      contradiction
    · intro hnone
      cases reply with
      | error w => exact ⟨w, rfl⟩
      | ok verdict =>
          have hbound := hsupported hdistinct verdict rfl _ (honly i j hpair) i.x _ (Or.inl rfl)
          obtain ⟨value, hvalue, -⟩ := hbound.places heffect.narrowing hpair
          exact absurd ⟨value, hvalue⟩ hnone
  · intro hdistinct i j hpair verdict hreply
    exact isHull_of_supported heffect.narrowing hpair
      (fun value hvalue => (places_of_effect heffect hvalue).1)
      (hsupported hdistinct verdict hreply _ (honly i j hpair))

/-- A square of side 2 with room on one axis, and a rectangle that can only be on its right. -/
def squareBeside : NonOverlap :=
  ⟨[⟨⟨0⟩, .clamp 2, ⟨1⟩, .clamp 2⟩, ⟨⟨2⟩, .clamp 3, ⟨3⟩, .clamp 2⟩]⟩

/-- The square loses the places from which it would reach the rectangle. -/
theorem propagate_tight_squareBeside :
    ∃ t, squareBeside.propagate.apply ⟨#[⟨0, 6⟩, ⟨0, 0⟩, ⟨4, 5⟩, ⟨0, 1⟩], #[], none⟩ =
        .ok (.ok .stable, t) ∧
      squareBeside.Tight ⟨#[⟨0, 6⟩, ⟨0, 0⟩, ⟨4, 5⟩, ⟨0, 1⟩], #[], none⟩ (.ok .stable) t ∧
      t.domains = #[⟨0, 3⟩, ⟨0, 0⟩, ⟨4, 5⟩, ⟨0, 1⟩] := by
  obtain ⟨reply, t, happly, htight⟩ := propagate_tight (c := squareBeside)
    (s := ⟨#[⟨0, 6⟩, ⟨0, 0⟩, ⟨4, 5⟩, ⟨0, 1⟩], #[], none⟩) (by decide) (by decide)
  obtain ⟨rfl, rfl⟩ := Prod.mk.inj (Except.ok.inj happly)
  exact ⟨_, rfl, htight, rfl⟩

end Run

end NonOverlap

end FiniteDomain
