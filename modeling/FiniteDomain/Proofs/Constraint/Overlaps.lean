import FiniteDomain.Proofs.Constraint.Supports

/-!
# Overlaps that are left

Non-overlap reports that it is entailed when for each pair one side holds whatever values are taken.
This is more than that no values make the pair overlap, for they might keep it apart on different
sides.  For rectangles with a positive area in different positions it is the same: if no side is sure,
then on each axis there are two values closer than the extents, and the values of the two axes do not
depend on each other.
-/

namespace FiniteDomain

/-- Two intervals with none far beyond the other have values close to each other. -/
theorem Interval.exists_close {d e : Interval} {w h : Int} (hd : d.lb ≤ d.ub) (he : e.lb ≤ e.ub)
    (hw : 1 ≤ w) (hh : 1 ≤ h) (hright : e.lb < d.ub + w) (hleft : d.lb < e.ub + h) :
    ∃ p ∈ d, ∃ q ∈ e, p < q + h ∧ q < p + w := by
  simp only [mem_iff]
  by_cases hbefore : d.ub < e.lb
  · exact ⟨d.ub, ⟨hd, le_rfl⟩, e.lb, ⟨le_rfl, he⟩, by omega, hright⟩
  by_cases hafter : e.ub < d.lb
  · exact ⟨d.lb, ⟨le_rfl, hd⟩, e.ub, ⟨he, le_rfl⟩, hleft, by omega⟩
  · -- a value of both is close to itself
    exact ⟨max d.lb e.lb, by omega, max d.lb e.lb, by omega, by omega, by omega⟩

theorem View.ofValues_update_le {V : View} {value : Var → Int} {x : Var} {v : Int}
    (hle : View.ofValues value ≤ V) (hv : v ∈ V x) :
    View.ofValues (Function.update value x v) ≤ V := by
  intro y
  unfold View.ofValues
  by_cases hyx : y = x
  · subst hyx
    rw [Function.update_self]
    exact Interval.singleton_le_iff.mpr hv
  · rw [Function.update_of_ne hyx]
    exact hle y

/-- Each of the two rectangles ends after the other starts, on both axes. -/
def Rectangle.Overlaps (i j : Rectangle) (value : Var → Int) : Prop :=
  (value i.x < value j.x + j.width.length ∧ value j.x < value i.x + i.width.length) ∧
    (value i.y < value j.y + j.height.length ∧ value j.y < value i.y + i.height.length)

/-- The rectangle has a positive area. -/
def Rectangle.IsSolid (r : Rectangle) : Prop :=
  1 ≤ r.width.length ∧ 1 ≤ r.height.length

instance (r : Rectangle) : Decidable r.IsSolid :=
  inferInstanceAs (Decidable (_ ∧ _))

section Pair

variable {i j : Rectangle} {value : Var → Int} {V : View}

theorem Rectangle.not_overlaps_iff : ¬ i.Overlaps j value ↔ i.IsApartFrom j value := by
  unfold Overlaps IsApartFrom
  omega

theorem Side.Apart.isApartFrom {side : Side} (hside : side.Apart i j V)
    (hle : ∀ x ∈ [i.x, i.y] ++ [j.x, j.y], View.ofValues value x ≤ V x) :
    i.IsApartFrom j value :=
  exists_possible_iff.mp ⟨side, hside.anti hle⟩

/-- If no side is sure, there are values for which two rectangles with a positive area overlap. -/
theorem Rectangle.exists_overlaps (hV : V.Consistent)
    (hdistinct : ([i.x, i.y] ++ [j.x, j.y]).Nodup) (hi : i.IsSolid) (hj : j.IsSolid)
    (hnone : ∀ side : Side, ¬ side.Apart i j V) :
    ∃ value, View.ofValues value ≤ V ∧ i.Overlaps j value := by
  have hleft := hnone .left
  have hright := hnone .right
  have habove := hnone .above
  have hbelow := hnone .below
  simp only [Side.Apart, Side.before, Side.gap, Side.after, Side.terms, not_le]
    at hleft hright habove hbelow
  obtain ⟨p, hp, q, hq, hx⟩ :=
    Interval.exists_close (hV i.x) (hV j.x) hi.1 hj.1 hright hleft
  obtain ⟨p', hp', q', hq', hy⟩ :=
    Interval.exists_close (hV i.y) (hV j.y) hi.2 hj.2 hbelow habove
  let lower : Var → Int := fun z => (V z).lb
  have hlower : View.ofValues lower ≤ V := fun z => ⟨le_rfl, hV z⟩
  have hchosen := View.ofValues_update_le (View.ofValues_update_le
    (View.ofValues_update_le (View.ofValues_update_le hlower hp) hp') hq) hq'
  refine ⟨_, hchosen, ?_⟩
  simp only [List.cons_append, List.nil_append, List.nodup_cons, List.mem_cons, List.not_mem_nil,
    or_false, not_or] at hdistinct
  obtain ⟨⟨hxy, hxx', hxy'⟩, ⟨hyx', hyy'⟩, hx'y', -⟩ := hdistinct
  simp only [Overlaps, Function.update_self, Function.update_of_ne hxy, Function.update_of_ne hxx',
    Function.update_of_ne hxy', Function.update_of_ne hyx', Function.update_of_ne hyy',
    Function.update_of_ne hx'y']
  exact ⟨hx, hy⟩

end Pair

namespace NonOverlap

variable {c : NonOverlap} {s t : Store} {verdict : Verdict}

/-- Whatever values are taken, no two of the rectangles overlap. -/
def NeverOverlaps (c : NonOverlap) (t : Store) : Prop :=
  ∀ value, t.Allows value → c.rectangles.Pairwise fun i j => ¬ i.Overlaps j value

theorem neverOverlaps_of_entailed (hhas : ∀ x ∈ Propagator.watched c, t.Has x)
    (hentailed : c.Entailed t.view) : c.NeverOverlaps t := by
  intro value hvalue
  apply pairwise_iff.mpr
  intro pair hpair
  obtain ⟨side, -, hside⟩ := hentailed pair hpair
  have hle : ∀ x ∈ [pair.1.x, pair.1.y] ++ [pair.2.x, pair.2.y],
      View.ofValues value x ≤ t.view x := by
    intro x hx
    exact Store.allows_iff.mp hvalue x (hhas x (mem_watched hpair hx))
  exact Rectangle.not_overlaps_iff.mpr (hside.isApartFrom hle)

theorem entailed_of_neverOverlaps (ht : t.view.Consistent)
    (hdistinct : (Propagator.watched c).Nodup) (hsolid : ∀ r ∈ c.rectangles, r.IsSolid)
    (hnever : c.NeverOverlaps t) : c.Entailed t.view := by
  intro pair hpair
  by_contra hunsure
  have hnone : ∀ side : Side, ¬ side.Apart pair.1 pair.2 t.view :=
    fun side hside => hunsure ⟨side, Side.mem_all side, hside⟩
  obtain ⟨hfirst, hsecond⟩ := mem_of_mem_pairsOf hpair
  obtain ⟨value, hle, hoverlaps⟩ := Rectangle.exists_overlaps ht (nodup_of_mem_pairs hdistinct hpair)
    (hsolid _ hfirst) (hsolid _ hsecond) hnone
  have hfree := hnever value (Store.allows_iff.mpr fun x _ => hle x)
  exact pairwise_iff.mp hfree pair hpair hoverlaps

/-- A run that does not fail reports that the constraint is entailed only if no overlap is left, and
for different positions and positive areas it does so whenever none is left. -/
theorem propagate_entailed_iff (hs : s.Consistent) (hhas : ∀ x ∈ Propagator.watched c, s.Has x)
    (hrun : c.propagate.apply s = .ok (.ok verdict, t)) :
    (verdict = .entailed → c.NeverOverlaps t) ∧
      ((∀ r ∈ c.rectangles, r.IsSolid) → (Propagator.watched c).Nodup →
        (c.NeverOverlaps t → verdict = .entailed) ∧
          (verdict = .stable ↔
            ∃ value, t.Allows value ∧ ∃ i j, [i, j].Sublist c.rectangles ∧ i.Overlaps j value)) := by
  obtain ⟨heffect, -, hverdict⟩ := (propagate_prunes hs hhas).of_apply hrun
  have hhas' : ∀ x ∈ Propagator.watched c, t.Has x :=
    fun x hx => heffect.narrowing.has_iff.mpr (hhas x hx)
  have hnever : verdict = .entailed → c.NeverOverlaps t :=
    fun hentailed => neverOverlaps_of_entailed hhas' (hverdict.mp hentailed)
  refine ⟨hnever, ?_⟩
  intro hsolid hdistinct
  have hexact : c.NeverOverlaps t → verdict = .entailed := fun hfree =>
    hverdict.mpr (entailed_of_neverOverlaps (heffect.consistent hs).view hdistinct hsolid hfree)
  refine ⟨hexact, ?_⟩
  have hstable : verdict = .stable ↔ ¬ c.NeverOverlaps t := by
    rw [← Iff.intro hnever hexact]
    cases verdict <;> simp
  rw [hstable]
  unfold NeverOverlaps
  simp only [List.pairwise_iff_forall_sublist, not_forall, not_not, exists_prop]

/-- A square at the origin, one on its right, and a small one in the rows below the first. -/
def threeSquares : NonOverlap :=
  ⟨[⟨⟨0⟩, .clamp 2, ⟨1⟩, .clamp 2⟩, ⟨⟨2⟩, .clamp 2, ⟨3⟩, .clamp 2⟩, ⟨⟨4⟩, .clamp 1, ⟨5⟩, .clamp 1⟩]⟩

/-- Places for them, where the small square is in the given columns. -/
def threePlaces (columns : Interval) : Store :=
  ⟨#[⟨0, 0⟩, ⟨0, 0⟩, ⟨2, 4⟩, ⟨0, 4⟩, columns, ⟨3, 3⟩], #[], none⟩

/-- The small square can be in the way of the one on the right, unless it stays on the left. -/
theorem propagate_entailed_iff_threeSquares :
    threeSquares.propagate.apply (threePlaces ⟨0, 6⟩) = .ok (.ok .stable, threePlaces ⟨0, 6⟩) ∧
      (∃ value, (threePlaces ⟨0, 6⟩).Allows value ∧
        ∃ i j, [i, j].Sublist threeSquares.rectangles ∧ i.Overlaps j value) ∧
      threeSquares.propagate.apply (threePlaces ⟨0, 1⟩) =
        .ok (.ok .entailed, threePlaces ⟨0, 1⟩) ∧
      threeSquares.NeverOverlaps (threePlaces ⟨0, 1⟩) := by
  have hwide : threeSquares.propagate.apply (threePlaces ⟨0, 6⟩) =
      .ok (.ok .stable, threePlaces ⟨0, 6⟩) := rfl
  have hleft : threeSquares.propagate.apply (threePlaces ⟨0, 1⟩) =
      .ok (.ok .entailed, threePlaces ⟨0, 1⟩) := rfl
  have hexact := (propagate_entailed_iff (by decide) (by decide) hwide).2 (by decide) (by decide)
  exact ⟨hwide, hexact.2.mp rfl, hleft, (propagate_entailed_iff (by decide) (by decide) hleft).1 rfl⟩

end NonOverlap

end FiniteDomain
