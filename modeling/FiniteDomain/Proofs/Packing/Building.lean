import FiniteDomain.Proofs.Packing.Squares
import FiniteDomain.Proofs.Posing

/-!
# The problem of packing

The model for packing squares poses the same problem, whatever formulation and heuristic it is built
with: a side within its bounds, a corner for each square, all squares inside and apart, and the
biggest one below the diagonal.  Every variable is labelled in the end, after it has been sliced or
bisected or not.
-/

namespace FiniteDomain

namespace NonOverlap

theorem pairsOf_map {α β : Type} (f : α → β) (as : List α) :
    pairsOf (as.map f) = (pairsOf as).map (Prod.map f f) := by
  induction as with
  | nil => rfl
  | cons a rest ih =>
      rw [List.map_cons, pairsOf, pairsOf, ih, List.map_append, List.map_map, List.map_map]
      rfl

theorem mem_pairsOf_range' {start count i j : Nat} :
    (i, j) ∈ pairsOf (List.range' start count) ↔ start ≤ i ∧ i < j ∧ j < start + count := by
  induction count generalizing start with
  | zero =>
      simp only [List.range'_zero, pairsOf, List.not_mem_nil, false_iff]
      omega
  | succ count ih =>
      simp only [List.range'_succ, pairsOf, List.mem_append, List.mem_map, List.mem_range'_1, ih,
        Prod.mk.injEq]
      constructor
      · rintro (⟨k, hk, rfl, rfl⟩ | h) <;> omega
      · intro h
        by_cases hi : i = start
        · exact Or.inl ⟨j, by omega, hi.symm, rfl⟩
        · exact Or.inr (by omega)

end NonOverlap

namespace Packing

section Computing

/-- The sum is taken from the biggest square down. -/
theorem areaFrom_eq_ok {total size area : Int} {count : Nat}
    (h : areaFrom total size count = .ok area) :
    area = total + ∑ k ∈ Finset.Ioc (size - count) size, k * k := by
  induction count generalizing total size with
  | zero =>
      rw [areaFrom, Except.ok.injEq] at h
      simp [h]
  | succ count ih =>
      unfold areaFrom at h
      obtain ⟨square, hsquare, h⟩ := Fault.bind_eq_ok_iff.mp h
      obtain ⟨sum, hsum, h⟩ := Fault.bind_eq_ok_iff.mp h
      obtain ⟨rfl, -⟩ := Word.fit_eq_ok_iff.mp hsquare
      obtain ⟨rfl, -⟩ := Word.fit_eq_ok_iff.mp hsum
      have hsizes : Finset.Ioc (size - (count + 1 : Nat)) size =
          insert size (Finset.Ioc (size - 1 - count) (size - 1)) := by
        ext k
        simp only [Finset.mem_insert, Finset.mem_Ioc]
        omega
      rw [ih h, hsizes, Finset.sum_insert (by simp), add_assoc]

theorem area_eq_of_areaFrom {n total : Int} (hn : 2 ≤ n)
    (h : areaFrom 0 n (n - 1).toNat = .ok total) : total = area n := by
  have hsizes : Finset.Ioc (n - (n - 1).toNat) n = Finset.Icc 2 n := by
    ext k
    simp only [Finset.mem_Ioc, Finset.mem_Icc]
    omega
  rw [areaFrom_eq_ok h, hsizes, zero_add]
  rfl

/-- When the area of the biggest square fits a word, its size is small. -/
theorem le_of_areaFrom {n total : Int} (hn : 2 ≤ n)
    (h : areaFrom 0 n (n - 1).toNat = .ok total) : n ≤ 46340 := by
  have hcount : (n - 1).toNat = (n - 2).toNat + 1 := by omega
  rw [hcount, areaFrom] at h
  obtain ⟨square, hsquare, -⟩ := Fault.bind_eq_ok_iff.mp h
  have hfits := (Word.fit_eq_ok_iff.mp hsquare).2.2
  unfold Word.greatest at hfits
  nlinarith

end Computing

section Squares

/-- The horizontal position of the square of the given size.  The biggest square is the first. -/
def xVar (n size : Int) : Var :=
  ⟨1 + (n - size).toNat⟩

/-- The vertical position of the square of the given size. -/
def yVar (n size : Int) : Var :=
  ⟨1 + (n - 1).toNat + (n - size).toNat⟩

def xVars (n : Int) : List Var :=
  (sizesFrom n).map (xVar n)

def yVars (n : Int) : List Var :=
  (sizesFrom n).map (yVar n)

/-- The squares with the variables of their corners. -/
def squares (n : Int) : List (Var × Var × Int) :=
  (sizesFrom n).map fun size => (xVar n size, yVar n size, size)

theorem sizesFrom_eq (n : Int) :
    sizesFrom n = (List.range' 0 (n - 1).toNat).map fun i : Nat => n - i := by
  apply List.ext_getElem
  · simp [sizesFrom]
  · intro i hi hi'
    simp only [List.length_map, List.length_range'] at hi'
    simp only [sizesFrom, List.getElem_reverse, List.getElem_map, List.getElem_range,
      List.getElem_range', List.length_map, List.length_range]
    omega

@[simp]
theorem length_sizesFrom (n : Int) : (sizesFrom n).length = (n - 1).toNat := by
  simp [sizesFrom]

theorem mem_sizesFrom {n size : Int} : size ∈ sizesFrom n ↔ 2 ≤ size ∧ size ≤ n := by
  rw [sizesFrom_eq, List.mem_map]
  constructor
  · rintro ⟨i, hi, rfl⟩
    rw [List.mem_range'_1] at hi
    omega
  · intro hsize
    refine ⟨(n - size).toNat, ?_, by omega⟩
    rw [List.mem_range'_1]
    omega

theorem mem_pairsOf_sizesFrom {n size size' : Int} :
    (size', size) ∈ NonOverlap.pairsOf (sizesFrom n) ↔ 2 ≤ size ∧ size < size' ∧ size' ≤ n := by
  rw [sizesFrom_eq, NonOverlap.pairsOf_map, List.mem_map]
  constructor
  · rintro ⟨⟨i, j⟩, hpair, heq⟩
    rw [NonOverlap.mem_pairsOf_range'] at hpair
    simp only [Prod.map_apply, Prod.mk.injEq] at heq
    omega
  · intro hsizes
    refine ⟨((n - size').toNat, (n - size).toNat), ?_, ?_⟩
    · rw [NonOverlap.mem_pairsOf_range']
      omega
    · simp only [Prod.map_apply, Prod.mk.injEq]
      omega

theorem map_range'_eq (n : Int) (start : Nat) :
    (List.range' start (n - 1).toNat).map Var.mk =
      (sizesFrom n).map fun size => ⟨start + (n - size).toNat⟩ := by
  rw [sizesFrom_eq, List.range'_eq_map_range, List.range'_eq_map_range, List.map_map, List.map_map,
    List.map_map]
  apply List.map_congr_left
  intro i _
  simp

theorem xVars_eq (n : Int) : xVars n = (List.range' 1 (n - 1).toNat).map Var.mk :=
  (map_range'_eq n 1).symm

theorem yVars_eq (n : Int) :
    yVars n = (List.range' (1 + (n - 1).toNat) (n - 1).toNat).map Var.mk :=
  (map_range'_eq n (1 + (n - 1).toNat)).symm

theorem zip_eq_squares (n : Int) : (xVars n).zip ((yVars n).zip (sizesFrom n)) = squares n := by
  unfold squares xVars yVars
  conv_lhs => rw [← List.map_id (sizesFrom n)]
  rw [List.map_map, List.map_map, List.zip_map', List.zip_map']
  rfl

theorem exists_sizesFrom_eq_cons {n : Int} (hn : 2 ≤ n) : ∃ rest, sizesFrom n = n :: rest := by
  have hcount : (n - 1).toNat = (n - 2).toNat + 1 := by omega
  rw [sizesFrom_eq, hcount, List.range'_succ, List.map_cons]
  exact ⟨(List.range' 1 (n - 2).toNat).map fun i : Nat => n - i, by simp⟩

/-- Two squares do not overlap. -/
def Apart (a b : Var × Var × Int) (value : Var → Int) : Prop :=
  value a.1 + a.2.2 ≤ value b.1 ∨ value b.1 + b.2.2 ≤ value a.1 ∨
    value a.2.1 + a.2.2 ≤ value b.2.1 ∨ value b.2.1 + b.2.2 ≤ value a.2.1

/-- The assignments that keep the squares of each pair apart. -/
def separating (pairs : List ((Var × Var × Int) × (Var × Var × Int))) : Set (Var → Int) :=
  { value | ∀ pair ∈ pairs, Apart pair.1 pair.2 value }

/-- The assignments that keep all squares in the one with the given side. -/
def enclosing (side : Var) (squares : List (Var × Var × Int)) : Set (Var → Int) :=
  { value | ∀ square ∈ squares, value square.1 + square.2.2 ≤ value side ∧
    value square.2.1 + square.2.2 ≤ value side }

theorem separating_cons (pair : (Var × Var × Int) × (Var × Var × Int))
    (rest : List ((Var × Var × Int) × (Var × Var × Int))) :
    separating (pair :: rest) = separating [pair] ∩ separating rest := by
  ext value
  simp [separating]

theorem enclosing_cons (side : Var) (square : Var × Var × Int) (rest : List (Var × Var × Int)) :
    enclosing side (square :: rest) =
      { value | value square.1 + square.2.2 ≤ value side } ∩
        ({ value | value square.2.1 + square.2.2 ≤ value side } ∩ enclosing side rest) := by
  ext value
  simp [enclosing, and_assoc]

theorem rectangles_eq (xs ys : List Var) (widths : List Extent) :
    Model.rectangles xs widths ys widths =
      (xs.zip (ys.zip widths)).map fun (x, y, width) => ⟨x, width, y, width⟩ := by
  unfold Model.rectangles
  induction xs generalizing ys widths with
  | nil => rfl
  | cons x xs ih =>
      cases ys with
      | nil => cases widths <;> rfl
      | cons y ys =>
          cases widths with
          | nil => rfl
          | cons width widths =>
              simp only [List.zip_cons_cons, List.zipWith_cons_cons, List.map_cons]
              rw [ih]

theorem holds_rectangles_iff {xs ys : List Var} {widths : List Extent} {value : Var → Int} :
    NonOverlap.Holds ⟨Model.rectangles xs widths ys widths⟩ value ↔
      value ∈ separating (NonOverlap.pairsOf (xs.zip (ys.zip (widths.map Extent.length)))) := by
  unfold NonOverlap.Holds separating
  rw [rectangles_eq, List.pairwise_map, NonOverlap.pairwise_iff, List.zip_map_right,
    List.zip_map_right, NonOverlap.pairsOf_map, Set.mem_ofPred_eq, List.forall_mem_map]
  rfl

end Squares

section Posing

variable {box : Table Interval} {allowed : Set (Var → Int)} {labelled : List Var} {m m' : Model}
  {sizes : List Int} {xs ys : List Var}

theorem poses_overlap (h : Model.Poses box allowed labelled m) (hxs : ∀ x ∈ xs, x.index < box.size)
    (hys : ∀ y ∈ ys, y.index < box.size)
    (hposted : Model.postNonOverlap m xs sizes ys sizes = .ok m') :
    Model.Poses box (allowed ∩ separating (NonOverlap.pairsOf (xs.zip (ys.zip sizes)))) labelled
      m' := by
  obtain ⟨widths, heights, hwidths, hheights, hposes⟩ := h.postNonOverlap hxs hys hposted
  have hinjective : Function.Injective Extent.length := by
    rintro ⟨a, _, _⟩ ⟨b, _, _⟩ (rfl : a = b)
    rfl
  -- widths and heights are checked one after the other, but they are the same lengths
  obtain rfl : heights = widths :=
    List.map_injective_iff.mpr hinjective (hheights.trans hwidths.symm)
  simp only [holds_rectangles_iff, hwidths] at hposes
  exact hposes

/-- The squares of a pair are kept apart, one pair after the other. -/
theorem poses_pairs (pairs : List ((Var × Var × Int) × (Var × Var × Int)))
    (hvars : ∀ pair ∈ pairs, (pair.1.1.index < box.size ∧ pair.1.2.1.index < box.size) ∧
      (pair.2.1.index < box.size ∧ pair.2.2.1.index < box.size))
    (h : Model.Poses box allowed labelled m)
    (hposted : pairs.foldlM (fun m ((x, y, size), (x', y', size')) =>
      Model.postNonOverlap m [x, x'] [size, size'] [y, y'] [size, size']) m = .ok m') :
    Model.Poses box (allowed ∩ separating pairs) labelled m' := by
  induction pairs generalizing m allowed with
  | nil =>
      obtain rfl := Except.ok.inj hposted
      simpa [separating] using h
  | cons pair rest ih =>
      obtain ⟨⟨x, y, size⟩, x', y', size'⟩ := pair
      obtain ⟨hfirst, hrest⟩ := List.forall_mem_cons.mp hvars
      rw [List.foldlM_cons] at hposted
      obtain ⟨m₁, hm₁, hposted⟩ := Fault.bind_eq_ok_iff.mp hposted
      have hposes := poses_overlap h (by simpa using ⟨hfirst.1.1, hfirst.2.1⟩)
        (by simpa using ⟨hfirst.1.2, hfirst.2.2⟩) hm₁
      rw [separating_cons, ← Set.inter_assoc]
      exact ih hrest hposes hposted

theorem poses_separate (h : Model.Poses box allowed labelled m)
    (hxs : ∀ x ∈ xs, x.index < box.size) (hys : ∀ y ∈ ys, y.index < box.size)
    {formulation : Formulation} (hposted : separate m sizes xs ys formulation = .ok m') :
    Model.Poses box (allowed ∩ separating (NonOverlap.pairsOf (xs.zip (ys.zip sizes)))) labelled
      m' := by
  cases formulation with
  | global => exact poses_overlap h hxs hys hposted
  | pairwise =>
      have hcorner : ∀ square ∈ xs.zip (ys.zip sizes),
          square.1.index < box.size ∧ square.2.1.index < box.size := by
        rintro ⟨x, y, size⟩ hsquare
        obtain ⟨hx, hrest⟩ := List.of_mem_zip hsquare
        exact ⟨hxs x hx, hys y (List.of_mem_zip hrest).1⟩
      apply poses_pairs _ _ h hposted
      intro pair hpair
      obtain ⟨hfirst, hsecond⟩ := NonOverlap.mem_of_mem_pairsOf hpair
      exact ⟨hcorner _ hfirst, hcorner _ hsecond⟩

/-- The squares are put inside, one after the other. -/
theorem poses_inside {side : Var} (squares : List (Var × Var × Int))
    (hvars : ∀ square ∈ squares, (square.1.index < box.size ∧ square.1 ≠ side) ∧
      square.2.1.index < box.size ∧ square.2.1 ≠ side)
    (hside : side.index < box.size) (h : Model.Poses box allowed labelled m) :
    Model.Poses box (allowed ∩ enclosing side squares) labelled
      (squares.foldl (fun m (x, y, size) =>
        let m := (Model.postPrecedence m x size side).2
        (Model.postPrecedence m y size side).2) m) := by
  induction squares generalizing m allowed with
  | nil => simpa [enclosing] using h
  | cons square rest ih =>
      obtain ⟨x, y, size⟩ := square
      obtain ⟨⟨⟨hx, hxside⟩, hy, hyside⟩, hrest⟩ := List.forall_mem_cons.mp hvars
      have hposes := (h.postPrecedence size hxside hx hside).postPrecedence size hyside hy hside
      rw [enclosing_cons, ← Set.inter_assoc, ← Set.inter_assoc]
      exact ih hrest hposes

/-- The corners of the squares are labelled one after the other. -/
theorem poses_corners (corners : List (Var × Var)) (h : Model.Poses box allowed labelled m) :
    Model.Poses box allowed (labelled ++ corners.flatMap fun (x, y) => [x, y])
      (corners.foldl (fun m (x, y) =>
        let m := (m.branch (.labelling (.ascending [x]))).2
        (m.branch (.labelling (.ascending [y]))).2) m) := by
  induction corners generalizing m labelled with
  | nil => simpa using h
  | cons corner rest ih =>
      obtain ⟨x, y⟩ := corner
      have hlabel := (h.label [x] .first .least (by simp [Choice.positions])).label [y] .first
        .least (by simp [Choice.positions])
      rw [List.append_assoc] at hlabel
      have hafter := ih hlabel
      rw [List.append_assoc] at hafter
      exact hafter

/-- Whatever the heuristic is, all corners are labelled in the end. -/
theorem poses_branchers (h : Model.Poses box allowed labelled m)
    (hlength : xs.length = ys.length) (hfits : xs.length ≤ Choice.positions) {fraction : Float}
    {minExtent : Int} {heuristic : Heuristic}
    (hadded : addBranchers m sizes xs ys fraction minExtent heuristic = .ok m') :
    ∃ labelled', Model.Poses box allowed labelled' m' ∧ labelled ⊆ labelled' ∧
      xs ⊆ labelled' ∧ ys ⊆ labelled' := by
  have hfits' : ys.length ≤ Choice.positions := hlength ▸ hfits
  cases heuristic with
  | columns =>
      obtain rfl := Except.ok.inj hadded
      exact ⟨_, (h.label xs _ _ hfits).label ys _ _ hfits', by simp, by simp, by simp⟩
  | biggest =>
      obtain rfl := Except.ok.inj hadded
      refine ⟨_, poses_corners (xs.zip ys) h, by simp, ?_, ?_⟩
      · intro x hx
        rw [← List.map_fst_zip hlength.le] at hx
        obtain ⟨corner, hcorner, rfl⟩ := List.mem_map.mp hx
        exact List.mem_append_right _ (List.mem_flatMap.mpr ⟨corner, hcorner, by simp⟩)
      · intro y hy
        rw [← List.map_snd_zip hlength.ge] at hy
        obtain ⟨corner, hcorner, rfl⟩ := List.mem_map.mp hy
        exact List.mem_append_right _ (List.mem_flatMap.mpr ⟨corner, hcorner, by simp⟩)
  | leftmost =>
      obtain rfl := Except.ok.inj hadded
      exact ⟨_, (h.label xs _ _ hfits).label ys _ _ hfits', by simp, by simp, by simp⟩
  | highest =>
      obtain rfl := Except.ok.inj hadded
      exact ⟨_, (h.label ys _ _ hfits').label xs _ _ hfits, by simp, by simp, by simp⟩
  | sliceEach =>
      obtain ⟨m₁, hm₁, hadded⟩ := Fault.bind_eq_ok_iff.mp hadded
      obtain ⟨m₂, hm₂, hadded⟩ := Fault.bind_eq_ok_iff.mp hadded
      obtain rfl := Except.ok.inj hadded
      have hx := (h.branchSlicing hfits hm₁).label xs .first .least hfits
      exact ⟨_, (hx.branchSlicing hfits' hm₂).label ys _ _ hfits', by simp, by simp, by simp⟩
  | sliceBoth =>
      obtain ⟨m₁, hm₁, hadded⟩ := Fault.bind_eq_ok_iff.mp hadded
      obtain ⟨m₂, hm₂, hadded⟩ := Fault.bind_eq_ok_iff.mp hadded
      obtain rfl := Except.ok.inj hadded
      have hsliced := (h.branchSlicing hfits hm₁).branchSlicing hfits' hm₂
      exact ⟨_, (hsliced.label xs _ _ hfits).label ys _ _ hfits', by simp, by simp, by simp⟩
  | bisect =>
      obtain ⟨b, hb, hadded⟩ := Fault.bind_eq_ok_iff.mp hadded
      obtain ⟨b', hb', hadded⟩ := Fault.bind_eq_ok_iff.mp hadded
      obtain rfl := Except.ok.inj hadded
      have hx := (h.bisect hfits hb).label xs .first .least hfits
      exact ⟨_, (hx.bisect hfits' hb').label ys _ _ hfits', by simp, by simp, by simp⟩

end Posing

section Built

/-- The domains of the side and of the corners. -/
noncomputable def domains (n : Int) : Table Interval :=
  #[⟨minSide n, maxSide n⟩] ++ Array.replicate (n - 1).toNat ⟨0, maxSide n - 1⟩ ++
    Array.replicate (n - 1).toNat ⟨0, maxSide n - 1⟩

/-- The squares are inside and apart, and the biggest one is below the diagonal. -/
def constraints (n : Int) : Set (Var → Int) :=
  enclosing ⟨0⟩ (squares n) ∩ { value | value (yVar n n) + 0 ≤ value (xVar n n) } ∩
    separating (NonOverlap.pairsOf (squares n))

/-- What is known of a model for packing squares that has been built. -/
structure Built (n : Int) (p : Packing) : Prop where
  sizes_eq : p.sizes = sizesFrom n
  side_eq : p.side = ⟨0⟩
  xs_eq : p.xs = xVars n
  ys_eq : p.ys = yVars n
  poses : ∃ labelled, Model.Poses (domains n) (constraints n) labelled p.model ∧
    ∀ x : Var, x.index < (domains n).size → x ∈ labelled

variable {n : Int}

@[simp]
theorem size_domains : (domains n).size = 1 + (n - 1).toNat + (n - 1).toNat := by
  simp [domains, Nat.add_assoc]

/-- The sides that are asked for are within the range of values. -/
theorem maxSide_le (hn : 2 ≤ n) (hle : n ≤ 46340) :
    n ≤ maxSide n ∧ maxSide n ≤ Word.maxValue ∧ minSide n ≤ maxSide n := by
  obtain ⟨x, y, hpacks⟩ := exists_packs_maxSide hn
  refine ⟨hpacks.le_side hn, ?_, hpacks.minSide_le hn⟩
  have hsqrt : ceilSqrt n.toNat ≤ 216 := ceilSqrt_le_iff.mpr (by omega)
  calc
    maxSide n ≤ 46340 * 216 := by
      unfold maxSide
      apply Int.mul_le_mul hle <;> omega
    _ ≤ Word.maxValue := by decide

theorem index_xVar_lt {size : Int} (hsize : 2 ≤ size) (hle : size ≤ n) :
    1 ≤ (xVar n size).index ∧ (xVar n size).index < 1 + (n - 1).toNat := by
  simp only [xVar]
  omega

theorem index_yVar_lt {size : Int} (hsize : 2 ≤ size) (hle : size ≤ n) :
    1 + (n - 1).toNat ≤ (yVar n size).index ∧
      (yVar n size).index < 1 + (n - 1).toNat + (n - 1).toNat := by
  simp only [yVar]
  omega

theorem index_lt_of_mem_xVars {x : Var} (hx : x ∈ xVars n) : x.index < (domains n).size := by
  obtain ⟨size, hsize, rfl⟩ := List.mem_map.mp hx
  rw [mem_sizesFrom] at hsize
  have hindex := index_xVar_lt hsize.1 hsize.2
  rw [size_domains]
  omega

theorem index_lt_of_mem_yVars {y : Var} (hy : y ∈ yVars n) : y.index < (domains n).size := by
  obtain ⟨size, hsize, rfl⟩ := List.mem_map.mp hy
  rw [mem_sizesFrom] at hsize
  have hindex := index_yVar_lt hsize.1 hsize.2
  rw [size_domains]
  omega

/-- Each variable is the side or belongs to a corner. -/
theorem var_cases {x : Var} (hx : x.index < (domains n).size) :
    x = ⟨0⟩ ∨ x ∈ xVars n ∨ x ∈ yVars n := by
  rcases x with ⟨k⟩
  rw [size_domains] at hx
  dsimp only at hx
  by_cases hzero : k = 0
  · exact Or.inl (congrArg Var.mk hzero)
  · by_cases hless : k < 1 + (n - 1).toNat
    · refine Or.inr (Or.inl (List.mem_map.mpr ⟨n - (k - 1), ?_, ?_⟩))
      · rw [mem_sizesFrom]
        omega
      · rw [xVar, Var.mk.injEq]
        omega
    · refine Or.inr (Or.inr (List.mem_map.mpr ⟨n - (k - (1 + (n - 1).toNat)), ?_, ?_⟩))
      · rw [mem_sizesFrom]
        omega
      · rw [yVar, Var.mk.injEq]
        omega

/-- Once the variables are there, all constraints and branchers are posted. -/
theorem poses_built (hn : 2 ≤ n) (hle : n ≤ 46340) {m m₁ m₂ : Model} {formulation : Formulation}
    {heuristic : Heuristic} {fraction : Float} {minExtent : Int}
    (h : Model.Poses (domains n) Set.univ [] m)
    (hseparate : separate
      (Model.postPrecedence ((squares n).foldl (fun m (x, y, size) =>
        let m := (Model.postPrecedence m x size ⟨0⟩).2
        (Model.postPrecedence m y size ⟨0⟩).2) m) (yVar n n) 0 (xVar n n)).2
      (sizesFrom n) (xVars n) (yVars n) formulation = .ok m₁)
    (hadded : addBranchers (m₁.branch (.labelling (.ascending [⟨0⟩]))).2 (sizesFrom n) (xVars n)
      (yVars n) fraction minExtent heuristic = .ok m₂) :
    ∃ labelled, Model.Poses (domains n) (constraints n) labelled m₂ ∧
      ∀ x : Var, x.index < (domains n).size → x ∈ labelled := by
  have hcorners : ∀ square ∈ squares n,
      (square.1.index < (domains n).size ∧ square.1 ≠ ⟨0⟩) ∧
        square.2.1.index < (domains n).size ∧ square.2.1 ≠ ⟨0⟩ := by
    intro square hsquare
    obtain ⟨size, hsize, rfl⟩ := List.mem_map.mp hsquare
    rw [mem_sizesFrom] at hsize
    have hx := index_xVar_lt hsize.1 hsize.2
    have hy := index_yVar_lt hsize.1 hsize.2
    simp only [size_domains, ne_eq, ← Var.index_inj]
    omega
  have hx := index_xVar_lt hn le_rfl
  have hy := index_yVar_lt hn le_rfl
  have hne : yVar n n ≠ xVar n n := by
    rw [ne_eq, ← Var.index_inj]
    omega
  rw [← size_domains] at hy
  have hinside := poses_inside (squares n) hcorners (by simp) h
  have hdiagonal := hinside.postPrecedence 0 hne hy.2 (by omega)
  have hapart := poses_separate hdiagonal (fun _ => index_lt_of_mem_xVars)
    (fun _ => index_lt_of_mem_yVars) hseparate
  have hside := hapart.label [⟨0⟩] .first .least (by decide)
  obtain ⟨labelled, hposes, hlabelled, hxs, hys⟩ := poses_branchers hside (by simp [xVars, yVars])
    (by simp [xVars, Choice.positions]; omega) hadded
  refine ⟨labelled, ?_, ?_⟩
  · rw [zip_eq_squares, Set.univ_inter] at hposes
    exact hposes
  · intro x hx
    rcases var_cases hx with rfl | hx | hy
    · exact hlabelled (by simp)
    · exact hxs hx
    · exact hys hy

theorem build_eq_ok (hn : 2 ≤ n) {formulation : Formulation} {heuristic : Heuristic}
    {fraction : Float} {minExtent : Int} {p : Packing}
    (h : build n formulation heuristic fraction minExtent = .ok (.ok p)) : Built n p := by
  unfold build at h
  obtain ⟨total, harea, h⟩ := Fault.bind_eq_ok_ok_iff.mp h
  rw [Fault.lift_eq_ok_ok_iff] at harea
  obtain ⟨maxSide', hmaxSide, h⟩ := Fault.bind_eq_ok_ok_iff.mp h
  rw [Fault.lift_eq_ok_ok_iff, Word.fit_eq_ok_iff] at hmaxSide
  obtain ⟨rfl, -⟩ := hmaxSide
  obtain rfl : total = area n := area_eq_of_areaFrom hn harea
  -- the area fits a word, so that all bounds are far within the range of values
  have hsmall : n ≤ 46340 := le_of_areaFrom hn harea
  obtain ⟨hle, hmax, hmin⟩ := maxSide_le hn hsmall
  have hleast : Word.minValue ≤ minSide n := by
    have hn' : n ≤ minSide n := le_max_right _ _
    simp only [Word.minValue]
    omega
  have hzero : Word.minValue ≤ 0 := by decide
  have hpositive : 0 ≤ maxSide n - 1 := by omega
  have hless : maxSide n - 1 ≤ Word.maxValue := by omega
  have hside := Model.poses_empty.newVar hleast hmin hmax
  have hxs := hside.newVars hzero hpositive hless (sizesFrom n).length
  have hys := hxs.newVars hzero hpositive hless (sizesFrom n).length
  dsimp only at h
  rw [← maxSide, ← minSide, Model.poses_empty.newVar_fst, hside.newVars_fst hzero hpositive hless,
    hxs.newVars_fst hzero hpositive hless] at h
  generalize (Node.newVars _ _ _ _).2 = m at h hys
  simp only [length_sizesFrom, Array.size_append, Array.size_push, Array.size_replicate,
    List.size_toArray, List.length_nil, zero_add] at h hys
  rw [← xVars_eq, ← yVars_eq, zip_eq_squares] at h
  split at h
  · rename_i x _ y _ hx hy
    obtain ⟨m₀, hm₀, h⟩ := Fault.bind_eq_ok_ok_iff.mp h
    obtain rfl := Except.ok.inj (Except.ok.inj hm₀)
    obtain ⟨m₁, hm₁, h⟩ := Fault.bind_eq_ok_ok_iff.mp h
    obtain ⟨m₂, hm₂, h⟩ := Fault.bind_eq_ok_ok_iff.mp h
    obtain rfl := Except.ok.inj (Except.ok.inj h)
    obtain ⟨rest, hrest⟩ := exists_sizesFrom_eq_cons hn
    rw [xVars, hrest, List.map_cons, List.cons.injEq] at hx
    rw [yVars, hrest, List.map_cons, List.cons.injEq] at hy
    rw [← hx.1, ← hy.1] at hm₁
    exact ⟨rfl, rfl, rfl, rfl,
      poses_built hn hsmall hys (Except.ok.inj hm₁) (Except.ok.inj hm₂)⟩
  · -- without squares there is no biggest one
    obtain ⟨m₀, hm₀, -⟩ := Fault.bind_eq_ok_ok_iff.mp h
    rw [Fault.lift_eq_ok_ok_iff] at hm₀
    contradiction

end Built

end Packing

end FiniteDomain
