import FiniteDomain.Packing
import Mathlib.Tactic

/-!
# Squares in a square

Placements of the squares of the sizes 2, …, `n` in a square of a given side, as sets of integer
points.  The squares are disjoint, so the side is bounded from below by their area.  A grid whose
cells have the biggest size holds all of them, which bounds the least side from above.  A placement
that is reflected at the diagonal is a placement.
-/

namespace FiniteDomain

theorem ceilSqrt_go_le_iff {n fuel k s : Nat} (hfuel : n ≤ (k + fuel) * (k + fuel))
    (hbelow : ∀ j < k, j * j < n) : ceilSqrt.go n fuel k ≤ s ↔ n ≤ s * s := by
  induction fuel generalizing k with
  | zero =>
      unfold ceilSqrt.go
      constructor
      · intro hle
        exact hfuel.trans (Nat.mul_le_mul hle hle)
      · intro hle
        by_contra hlt
        exact absurd (hbelow s (by omega)) (by omega)
  | succ fuel ih =>
      unfold ceilSqrt.go
      split
      · rename_i hk
        constructor
        · intro hle
          exact hk.trans (Nat.mul_le_mul hle hle)
        · intro hle
          by_contra hlt
          exact absurd (hbelow s (by omega)) (by omega)
      · rename_i hk
        apply ih
        · rw [Nat.add_right_comm, Nat.add_assoc]
          exact hfuel
        · intro j hj
          rcases Nat.lt_succ_iff_lt_or_eq.mp hj with hlt | rfl
          · exact hbelow j hlt
          · omega

theorem ceilSqrt_le_iff {n s : Nat} : ceilSqrt n ≤ s ↔ n ≤ s * s := by
  apply ceilSqrt_go_le_iff
  · rw [Nat.zero_add]
    exact Nat.le_mul_self n
  · intro j hj
    omega

namespace Packing

/-- The squares of the sizes 2, …, `n` lie within a square of the given side, with their corners
nearest to the origin at the given points, and no two of them overlap. -/
structure Packs (n side : Int) (x y : Int → Int) : Prop where
  inside : ∀ size, 2 ≤ size → size ≤ n →
    0 ≤ x size ∧ x size + size ≤ side ∧ 0 ≤ y size ∧ y size + size ≤ side
  apart : ∀ size size', 2 ≤ size → size < size' → size' ≤ n →
    x size + size ≤ x size' ∨ x size' + size' ≤ x size ∨
      y size + size ≤ y size' ∨ y size' + size' ≤ y size

/-- The area of the squares of the sizes 2, …, `n`. -/
noncomputable def area (n : Int) : Int :=
  ∑ size ∈ Finset.Icc 2 n, size * size

/-- The side of a square that has at least this area and holds the biggest square. -/
noncomputable def minSide (n : Int) : Int :=
  max (ceilSqrt (area n).toNat : Int) n

/-- The side of a square whose rows hold squares of the biggest size. -/
def maxSide (n : Int) : Int :=
  n * ceilSqrt n.toNat

namespace Packs

variable {n side : Int} {x y : Int → Int}

theorem reflect (h : Packs n side x y) : Packs n side y x where
  inside size hsize hn := by
    have hinside := h.inside size hsize hn
    omega
  apart size size' hsize hlt hn := by
    have hapart := h.apart size size' hsize hlt hn
    omega

theorem le_side (h : Packs n side x y) (hn : 2 ≤ n) : n ≤ side := by
  have hinside := h.inside n hn le_rfl
  omega

/-- The points of a square. -/
noncomputable def cells (x y : Int → Int) (size : Int) : Finset (Int × Int) :=
  Finset.Ico (x size) (x size + size) ×ˢ Finset.Ico (y size) (y size + size)

theorem mem_cells {size : Int} {c : Int × Int} :
    c ∈ cells x y size ↔ (x size ≤ c.1 ∧ c.1 < x size + size) ∧
      (y size ≤ c.2 ∧ c.2 < y size + size) := by
  unfold cells
  rw [Finset.mem_product, Finset.mem_Ico, Finset.mem_Ico]

theorem card_cells {size : Int} (hsize : 0 ≤ size) :
    ((cells x y size).card : Int) = size * size := by
  unfold cells
  rw [Finset.card_product, Int.card_Ico, Int.card_Ico, add_sub_cancel_left, add_sub_cancel_left]
  push_cast
  rw [Int.toNat_of_nonneg hsize]

theorem disjoint_cells (h : Packs n side x y) {size size' : Int} (hsize : 2 ≤ size)
    (hlt : size < size') (hn : size' ≤ n) : Disjoint (cells x y size) (cells x y size') := by
  rw [Finset.disjoint_left]
  intro c hc hc'
  rw [mem_cells] at hc hc'
  have hapart := h.apart size size' hsize hlt hn
  omega

theorem cells_subset (h : Packs n side x y) {size : Int} (hsize : 2 ≤ size) (hn : size ≤ n) :
    cells x y size ⊆ Finset.Ico 0 side ×ˢ Finset.Ico 0 side := by
  intro c hc
  rw [mem_cells] at hc
  rw [Finset.mem_product, Finset.mem_Ico, Finset.mem_Ico]
  have hinside := h.inside size hsize hn
  omega

/-- The area of the squares is at most the area of the square that holds them. -/
theorem area_le (h : Packs n side x y) (hn : 2 ≤ n) : area n ≤ side * side := by
  have hside : 0 ≤ side := by
    have hle := h.le_side hn
    omega
  have hdisjoint : (Finset.Icc 2 n : Set Int).PairwiseDisjoint (cells x y) := by
    intro size hsize size' hsize' hne
    rw [Finset.mem_coe, Finset.mem_Icc] at hsize hsize'
    rcases lt_or_gt_of_ne hne with hlt | hlt
    · exact h.disjoint_cells hsize.1 hlt hsize'.2
    · exact (h.disjoint_cells hsize'.1 hlt hsize.2).symm
  have hsub : (Finset.Icc 2 n).biUnion (cells x y) ⊆ Finset.Ico 0 side ×ˢ Finset.Ico 0 side := by
    rw [Finset.biUnion_subset]
    intro size hsize
    rw [Finset.mem_Icc] at hsize
    exact h.cells_subset hsize.1 hsize.2
  calc
    area n = ∑ size ∈ Finset.Icc 2 n, ((cells x y size).card : Int) := by
      apply Finset.sum_congr rfl
      intro size hsize
      rw [Finset.mem_Icc] at hsize
      exact (card_cells (by omega)).symm
    _ = ((Finset.Icc 2 n).biUnion (cells x y)).card := by
      rw [Finset.card_biUnion hdisjoint, Nat.cast_sum]
    _ ≤ (Finset.Ico 0 side ×ˢ Finset.Ico 0 side).card := by
      exact_mod_cast Finset.card_le_card hsub
    _ = side * side := by
      rw [Finset.card_product, Int.card_Ico, sub_zero, Nat.cast_mul, Int.toNat_of_nonneg hside]

theorem minSide_le (h : Packs n side x y) (hn : 2 ≤ n) : minSide n ≤ side := by
  have hside := h.le_side hn
  have harea := h.area_le hn
  obtain ⟨side, rfl⟩ := Int.eq_ofNat_of_zero_le (show 0 ≤ side by omega)
  apply max_le _ hside
  rw [Int.ofNat_le, ceilSqrt_le_iff, Int.toNat_le, Nat.cast_mul]
  exact harea

end Packs

section Grid

variable {n c : Int}

theorem lane_le {size a b : Int} (hsize : size ≤ n) (hn : 0 ≤ n) (hab : a < b) :
    n * a + size ≤ n * b := by
  calc
    n * a + size ≤ n * a + n := by omega
    _ = n * (a + 1) := by ring
    _ ≤ n * b := Int.mul_le_mul_of_nonneg_left hab hn

/-- The squares, the biggest first, placed row by row in a grid of `c * c` cells. -/
theorem packs_grid (hn : 0 ≤ n) (hc : 0 < c) (hfits : n ≤ c * c) :
    Packs n (n * c) (fun size => n * ((n - size) % c)) fun size => n * ((n - size) / c) := by
  have hcolumn : ∀ i, 0 ≤ i % c ∧ i % c < c :=
    fun i => ⟨Int.emod_nonneg i hc.ne', Int.emod_lt_of_pos i hc⟩
  constructor
  · intro size hsize hle
    have hrow : (n - size) / c < c := Int.ediv_lt_of_lt_mul hc (by omega)
    have hrow' : 0 ≤ (n - size) / c := Int.ediv_nonneg (by omega) hc.le
    obtain ⟨hleast, hless⟩ := hcolumn (n - size)
    exact ⟨Int.mul_nonneg hn hleast, lane_le hle hn hless,
      Int.mul_nonneg hn hrow', lane_le hle hn hrow⟩
  · intro size size' _ hlt hle
    have hrows : (n - size') / c ≤ (n - size) / c := Int.ediv_le_ediv hc (by omega)
    rcases hrows.lt_or_eq with hrow | hrow
    · exact Or.inr (Or.inr (Or.inr (lane_le hle hn hrow)))
    · -- in one row the columns differ
      have hne : (n - size) % c ≠ (n - size') % c := by
        intro hsame
        have hdiv := Int.mul_ediv_add_emod (n - size) c
        have hdiv' := Int.mul_ediv_add_emod (n - size') c
        rw [hrow, ← hsame] at hdiv'
        omega
      rcases lt_or_gt_of_ne hne with hcolumn | hcolumn
      · exact Or.inl (lane_le (by omega) hn hcolumn)
      · exact Or.inr (Or.inl (lane_le hle hn hcolumn))

theorem exists_packs_maxSide (hn : 2 ≤ n) : ∃ x y, Packs n (maxSide n) x y := by
  have hfits : n.toNat ≤ ceilSqrt n.toNat * ceilSqrt n.toNat := ceilSqrt_le_iff.mp le_rfl
  have hpos : 0 < ceilSqrt n.toNat := by
    by_contra hzero
    rw [Nat.eq_zero_of_not_pos hzero] at hfits
    omega
  refine ⟨_, _, packs_grid (by omega) (Int.natCast_pos.mpr hpos) ?_⟩
  rw [← Nat.cast_mul]
  omega

end Grid

end Packing

end FiniteDomain
