import FiniteDomain.Proofs.Packing.Building

/-!
# The smallest square

A search for the least side that comes to its end has found the smallest square that holds all
squares, with a place for each of them.  The assignments that the model allows are the placements in
squares within the bounds, in which the biggest square is below the diagonal.  None of these limits
excludes the optimum: a smaller side would not have the area, the grid is a placement at the greatest
side, and each placement or its reflection is below the diagonal.
-/

namespace FiniteDomain

namespace Packing

variable {n side : Int} {x y : Int → Int} {value : Var → Int}

section Assignments

theorem getElem_domains {k : Nat} (hk : k < (domains n).size) :
    (domains n)[k] = if k = 0 then ⟨minSide n, maxSide n⟩ else ⟨0, maxSide n - 1⟩ := by
  cases k with
  | zero => simp [domains]
  | succ k => simp [domains]

/-- The side is within its bounds, and so are the corners. -/
theorem allows_domains_iff :
    (Store.ofBox (domains n)).Allows value ↔
      (minSide n ≤ value ⟨0⟩ ∧ value ⟨0⟩ ≤ maxSide n) ∧ ∀ size, 2 ≤ size → size ≤ n →
        (0 ≤ value (xVar n size) ∧ value (xVar n size) ≤ maxSide n - 1) ∧
          0 ≤ value (yVar n size) ∧ value (yVar n size) ≤ maxSide n - 1 := by
  rw [Store.allows_ofBox_iff]
  constructor
  · intro h
    have hcorner : ∀ x : Var, 1 ≤ x.index → x.index < (domains n).size →
        0 ≤ value x ∧ value x ≤ maxSide n - 1 := by
      intro x hpos hx
      have hmem := h x.index hx
      rw [getElem_domains, if_neg (by omega)] at hmem
      exact hmem
    constructor
    · have hmem := h 0 (by simp)
      rw [getElem_domains, if_pos rfl] at hmem
      exact hmem
    · intro size hle hn
      have hx := index_xVar_lt hle hn
      have hy := index_yVar_lt hle hn
      rw [size_domains] at hcorner
      exact ⟨hcorner _ (by omega) (by omega), hcorner _ (by omega) (by omega)⟩
  · rintro ⟨hside, hcorners⟩ k hk
    rw [getElem_domains]
    split
    · rename_i hzero
      subst hzero
      exact hside
    · rename_i hpos
      rcases var_cases (x := ⟨k⟩) hk with hzero | hx | hy
      · exact absurd (congrArg Var.index hzero) hpos
      · obtain ⟨size, hmem, hx⟩ := List.mem_map.mp hx
        rw [mem_sizesFrom] at hmem
        rw [← hx]
        exact (hcorners size hmem.1 hmem.2).1
      · obtain ⟨size, hmem, hy⟩ := List.mem_map.mp hy
        rw [mem_sizesFrom] at hmem
        rw [← hy]
        exact (hcorners size hmem.1 hmem.2).2

theorem mem_constraints_iff :
    value ∈ constraints n ↔
      (∀ size, 2 ≤ size → size ≤ n →
        value (xVar n size) + size ≤ value ⟨0⟩ ∧ value (yVar n size) + size ≤ value ⟨0⟩) ∧
      value (yVar n n) + 0 ≤ value (xVar n n) ∧
      ∀ size size', 2 ≤ size → size < size' → size' ≤ n →
        Apart (xVar n size', yVar n size', size') (xVar n size, yVar n size, size) value := by
  unfold constraints enclosing separating squares
  rw [Set.mem_inter_iff, Set.mem_inter_iff, and_assoc, Set.mem_ofPred_eq, Set.mem_ofPred_eq,
    Set.mem_ofPred_eq, List.forall_mem_map, NonOverlap.pairsOf_map, List.forall_mem_map]
  refine and_congr ?_ (and_congr Iff.rfl ?_)
  · simp only [mem_sizesFrom, and_imp]
  · constructor
    · intro h size size' hle hlt hn
      exact h (size', size) (mem_pairsOf_sizesFrom.mpr ⟨hle, hlt, hn⟩)
    · rintro h ⟨size', size⟩ hpair
      obtain ⟨hle, hlt, hn⟩ := mem_pairsOf_sizesFrom.mp hpair
      exact h size size' hle hlt hn

/-- The corners of an allowed assignment are those of a placement. -/
theorem packs_of_mem_constraints (hbox : (Store.ofBox (domains n)).Allows value)
    (h : value ∈ constraints n) :
    Packs n (value ⟨0⟩) (fun size => value (xVar n size)) fun size => value (yVar n size) := by
  rw [allows_domains_iff] at hbox
  obtain ⟨hinside, -, hapart⟩ := mem_constraints_iff.mp h
  constructor
  · intro size hle hn
    obtain ⟨⟨hx, -⟩, hy, -⟩ := hbox.2 size hle hn
    obtain ⟨hx', hy'⟩ := hinside size hle hn
    exact ⟨hx, hx', hy, hy'⟩
  · intro size size' hle hlt hn
    rcases hapart size size' hle hlt hn with h | h | h | h
    · exact Or.inr (Or.inl h)
    · exact Or.inl h
    · exact Or.inr (Or.inr (Or.inr h))
    · exact Or.inr (Or.inr (Or.inl h))

/-- The assignment that says where the squares are placed. -/
def assignmentOf (n side : Int) (x y : Int → Int) (v : Var) : Int :=
  if v.index = 0 then side
  else if v.index < 1 + (n - 1).toNat then x (n - (v.index - 1))
  else y (n - (v.index - 1 - (n - 1).toNat))

@[simp]
theorem assignmentOf_side : assignmentOf n side x y ⟨0⟩ = side := by
  simp [assignmentOf]

theorem assignmentOf_xVar {size : Int} (hsize : 2 ≤ size) (hle : size ≤ n) :
    assignmentOf n side x y (xVar n size) = x size := by
  have hindex := index_xVar_lt hsize hle
  unfold assignmentOf
  rw [if_neg (by omega), if_pos hindex.2]
  congr 1
  simp only [xVar]
  omega

theorem assignmentOf_yVar {size : Int} (hsize : 2 ≤ size) (hle : size ≤ n) :
    assignmentOf n side x y (yVar n size) = y size := by
  have hindex := index_yVar_lt hsize hle
  unfold assignmentOf
  rw [if_neg (by omega), if_neg (by omega)]
  congr 1
  simp only [yVar]
  omega

/-- A placement within the bounds is allowed, when its biggest square is below the diagonal. -/
theorem Packs.allowed (h : Packs n side x y) (hn : 2 ≤ n) (hside : side ≤ maxSide n)
    (hdiagonal : y n ≤ x n) :
    (Store.ofBox (domains n)).Allows (assignmentOf n side x y) ∧
      assignmentOf n side x y ∈ constraints n := by
  constructor
  · rw [allows_domains_iff, assignmentOf_side]
    refine ⟨⟨h.minSide_le hn, hside⟩, ?_⟩
    intro size hsize hle
    rw [assignmentOf_xVar hsize hle, assignmentOf_yVar hsize hle]
    have hinside := h.inside size hsize hle
    omega
  · rw [mem_constraints_iff, assignmentOf_side, assignmentOf_xVar hn le_rfl,
      assignmentOf_yVar hn le_rfl, add_zero]
    refine ⟨?_, hdiagonal, ?_⟩
    · intro size hsize hle
      rw [assignmentOf_xVar hsize hle, assignmentOf_yVar hsize hle]
      have hinside := h.inside size hsize hle
      exact ⟨hinside.2.1, hinside.2.2.2⟩
    · intro size size' hsize hlt hle
      have hsmaller : size ≤ n := hlt.le.trans hle
      have hlarger : 2 ≤ size' := hsize.trans hlt.le
      have hapart := h.apart size size' hsize hlt hle
      unfold Apart
      simp only [assignmentOf_xVar hsize hsmaller, assignmentOf_yVar hsize hsmaller,
        assignmentOf_xVar hlarger hle, assignmentOf_yVar hlarger hle]
      omega

/-- One of a placement and its reflection is below the diagonal. -/
theorem Packs.exists_allowed (h : Packs n side x y) (hn : 2 ≤ n) (hside : side ≤ maxSide n) :
    ∃ value, (Store.ofBox (domains n)).Allows value ∧ value ∈ constraints n ∧
      value ⟨0⟩ = side := by
  rcases le_total (y n) (x n) with hdiagonal | hdiagonal
  · obtain ⟨hbox, hallowed⟩ := h.allowed hn hside hdiagonal
    exact ⟨_, hbox, hallowed, assignmentOf_side⟩
  · obtain ⟨hbox, hallowed⟩ := h.reflect.allowed hn hside hdiagonal
    exact ⟨_, hbox, hallowed, assignmentOf_side⟩

end Assignments

/-- The side that is found when a search for the least one comes to its end within the fuel. -/
def optimum (n : Int) (formulation : Formulation) (heuristic : Heuristic) (fraction : Float)
    (minExtent : Int) (fuel : Nat) : Option Int :=
  match build n formulation heuristic fraction minExtent with
  | .ok (.ok p) =>
    match (p.search .unlimited .info).last fuel with
    | .ok ⟨t, some sol, _⟩ => if t.progress = .exhausted then (p.sideOf sol).toOption else none
    | _ => none
  | _ => none

theorem optimum_eq_some {formulation : Formulation} {heuristic : Heuristic} {fraction : Float}
    {minExtent : Int} {fuel : Nat}
    (h : optimum n formulation heuristic fraction minExtent fuel = some side) :
    ∃ p sols t sol, build n formulation heuristic fraction minExtent = .ok (.ok p) ∧
      (p.search .unlimited .info).Returns sols t ∧ t.progress = .exhausted ∧
        sols.getLast? = some sol ∧ p.sideOf sol = .ok side := by
  unfold optimum at h
  split at h
  · rename_i p hbuild
    split at h
    · rename_i t sol _ hlast
      obtain ⟨sols, hreturns, hsol⟩ := Search.returns_of_last_eq_ok hlast
      split at h
      · rename_i hended
        refine ⟨p, sols, t, sol, hbuild, hreturns, hended, hsol.symm, ?_⟩
        cases hside : p.sideOf sol with
        | error f => simp [hside, Except.toOption] at h
        | ok found =>
            rw [hside, Except.toOption, Option.some.injEq] at h
            rw [h]
      · contradiction
    · contradiction
  · contradiction

/-- The last solution of a search that comes to its end is the smallest square in which the squares
can be placed, with a place for each of them. -/
theorem last_isLeast (hn : 2 ≤ n) {formulation : Formulation} {heuristic : Heuristic}
    {fraction : Float} {minExtent : Int} {p : Packing}
    (hbuild : build n formulation heuristic fraction minExtent = .ok (.ok p)) {budget : Budget}
    {verbosity : Level} {sols : List Solution} {t : Search Constraint Strategy}
    (hreturns : (p.search budget verbosity).Returns sols t) (hended : t.progress = .exhausted) :
    ∃ sol side x y, sols.getLast? = some sol ∧ p.sideOf sol = .ok side ∧
      sol.values p.xs = .ok (some (p.sizes.map x)) ∧
        sol.values p.ys = .ok (some (p.sizes.map y)) ∧ Packs n side x y ∧
          IsLeast { s | ∃ x y, Packs n s x y } side := by
  have hbuilt := build_eq_ok hn hbuild
  obtain ⟨labelled, hposes, hlabelled⟩ := hbuilt.poses
  -- the grid shows that the model has a solution at all
  obtain ⟨x₀, y₀, hgrid⟩ := exists_packs_maxSide hn
  obtain ⟨value, hbox, hallowed, -⟩ := hgrid.exists_allowed hn le_rfl
  obtain ⟨sol, hlast, hsolBox, hsolAllowed, hvalues, hoptimal⟩ :=
    Search.exists_optimum hposes hlabelled hreturns hended hbox hallowed
  have hpacks := packs_of_mem_constraints hsolBox hsolAllowed
  have hside : sol.store.value? p.side = .ok (some (sol.assignment ⟨0⟩)) := by
    rw [hbuilt.side_eq]
    exact hvalues ⟨0⟩ (by simp)
  refine ⟨sol, sol.assignment ⟨0⟩, fun size => sol.assignment (xVar n size),
    fun size => sol.assignment (yVar n size), hlast, ?_, ?_, ?_, hpacks, ⟨_, _, hpacks⟩, ?_⟩
  · obtain ⟨hhas, hview⟩ := Store.value?_eq_some_iff.mp hside
    unfold sideOf
    rw [Store.lower_of_has hhas, hview]
    rfl
  · rw [hbuilt.xs_eq, hbuilt.sizes_eq,
      Solution.values_eq_some fun x hx => hvalues x (index_lt_of_mem_xVars hx), xVars,
      List.map_map]
    rfl
  · rw [hbuilt.ys_eq, hbuilt.sizes_eq,
      Solution.values_eq_some fun y hy => hvalues y (index_lt_of_mem_yVars hy), yVars,
      List.map_map]
    rfl
  · rintro side ⟨x, y, h⟩
    by_cases hside : side ≤ maxSide n
    · obtain ⟨other, hother, hother', rfl⟩ := h.exists_allowed hn hside
      have hnot := hoptimal other hother hother'
      rw [hbuilt.side_eq] at hnot
      exact Int.not_lt.mp hnot
    · -- beyond the bounds no square is smaller than the one of the solution
      have hle := (allows_domains_iff.mp hsolBox).1.2
      omega

/-- Squares of the sizes 4, 3 and 2 need a square of side 7. -/
theorem last_isLeast_four :
    ∃ p sols t, build 4 .pairwise .biggest 0.5 5 = .ok (.ok p) ∧
      (p.search .unlimited .info).Returns sols t ∧ t.progress = .exhausted ∧
        IsLeast { s | ∃ x y, Packs 4 s x y } 7 := by
  have hrun : optimum 4 .pairwise .biggest 0.5 5 20 = some 7 := by decide +kernel
  obtain ⟨p, sols, t, sol, hbuild, hreturns, hended, hlast, hside⟩ := optimum_eq_some hrun
  obtain ⟨sol', side, x, y, hlast', hside', -, -, -, hleast⟩ :=
    last_isLeast (by decide) hbuild hreturns hended
  obtain rfl : sol' = sol := Option.some.inj (hlast'.symm.trans hlast)
  obtain rfl : side = 7 := Except.ok.inj (hside'.symm.trans hside)
  exact ⟨p, sols, t, hbuild, hreturns, hended, hleast⟩

end Packing

end FiniteDomain
