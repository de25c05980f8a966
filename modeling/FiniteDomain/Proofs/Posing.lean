import FiniteDomain.Proofs.SearchOptimality

/-!
# Posing problems

A program states its problem by a sequence of requests.  What matters for the answers of a search is
what the model says in the end: the domains, the assignments that the constraints allow, and that the
strategies split and label its variables.  Each request changes one of these and keeps the others.  A
search over a model that poses a problem finds the best assignment of the problem, if it has one.
-/

namespace FiniteDomain

/-- A computation with two kinds of errors succeeds in two steps when both steps do. -/
theorem Fault.bind_eq_ok_ok_iff {ε φ α β : Type} {x : ExceptT ε (Except φ) α}
    {f : α → ExceptT ε (Except φ) β} {b : β} :
    (x >>= f) = (Except.ok (Except.ok b) : Except φ (Except ε β)) ↔
      ∃ a, x = (Except.ok (Except.ok a) : Except φ (Except ε α)) ∧
        f a = (Except.ok (Except.ok b) : Except φ (Except ε β)) := by
  change ExceptT.bind x f = _ ↔ _
  rcases x with e | (e | a)
  · simp [ExceptT.bind, ExceptT.mk, bind, Except.bind]
  · constructor
    · intro h
      cases h
    · rintro ⟨a, ha, -⟩
      cases ha
  · constructor
    · intro h
      exact ⟨a, rfl, h⟩
    · rintro ⟨a', ha, h⟩
      cases ha
      exact h

theorem Fault.lift_eq_ok_ok_iff {ε φ α : Type} {x : Except φ α} {a : α} :
    (liftM x : ExceptT ε (Except φ) α) = (Except.ok (Except.ok a) : Except φ (Except ε α)) ↔
      x = .ok a := by
  change ExceptT.lift x = _ ↔ _
  cases x with
  | error e =>
      constructor <;> intro h <;> cases h
  | ok b =>
      constructor
      · intro h
        cases h
        rfl
      · rintro ⟨⟩
        rfl

theorem Store.allows_ofBox_iff {box : Table Interval} {value : Var → Int} :
    (Store.ofBox box).Allows value ↔ ∀ k, ∀ hk : k < box.size, value ⟨k⟩ ∈ box[k] :=
  Store.allows_iff_getElem

namespace NonOverlap

/-- Less than two rectangles cannot overlap. -/
theorem holds_of_length_le_one {rectangles : List Rectangle} (hfew : rectangles.length ≤ 1)
    (value : Var → Int) : Holds ⟨rectangles⟩ value := by
  change rectangles.Pairwise _
  match rectangles with
  | [] => exact .nil
  | [r] => exact List.pairwise_singleton _ r

end NonOverlap

namespace Model

/-- The model has the given domains, its constraints say of an assignment that it is allowed, and its
strategies split.  The given variables are among those that they label. -/
structure Poses (box : Table Interval) (allowed : Set (Var → Int)) (labelled : List Var)
    (m : Model) : Prop where
  store_eq : m.store = .ofBox box
  reachable : ∃ asked ps, Reachable asked ps m ∧ (∀ p ∈ ps, p.Distinct) ∧
    ∀ value, value ∈ allowed ↔ ∀ p ∈ ps, p.Holds value
  splitting : Search.Splitting m
  labels : ∀ x ∈ labelled, ∃ b ∈ m.branchers, x ∈ b.labels

variable {box : Table Interval} {allowed : Set (Var → Int)} {labelled : List Var} {m n : Model}

theorem poses_empty : Poses #[] Set.univ [] Node.empty where
  store_eq := rfl
  reachable := ⟨#[], [], .empty, by simp, by simp⟩
  splitting _ hb := absurd hb (Array.not_mem_empty _)
  labels := by simp

namespace Poses

theorem failure (h : Poses box allowed labelled m) : m.store.failure = none := by
  rw [h.store_eq]
  rfl

theorem has (h : Poses box allowed labelled m) {x : Var} (hx : x.index < box.size) :
    m.store.Has x := by
  rw [h.store_eq]
  exact hx

section Variables

variable {lb ub : Int}

theorem newVar_fst (h : Poses box allowed labelled m) (lb ub : Int) :
    (m.newVar lb ub).1 = ⟨box.size⟩ := by
  unfold Node.newVar Store.newVar
  rw [h.store_eq]
  dsimp only
  split <;> rfl

theorem newVar (h : Poses box allowed labelled m) (hleast : Word.minValue ≤ lb) (hle : lb ≤ ub)
    (hgreatest : ub ≤ Word.maxValue) :
    Poses (box.push ⟨lb, ub⟩) allowed labelled (m.newVar lb ub).2 := by
  obtain ⟨asked, ps, hreachable, hdistinct, hallowed⟩ := h.reachable
  refine ⟨?_, ⟨_, ps, hreachable.newVar lb ub, hdistinct, hallowed⟩, h.splitting, h.labels⟩
  rcases newVar_cases m lb ub with ⟨hnot, -⟩ | ⟨-, heq⟩
  · exact absurd ⟨hleast, hle, hgreatest⟩ hnot
  · rw [heq, h.store_eq]
    rfl

theorem newVars_fst (h : Poses box allowed labelled m) (hleast : Word.minValue ≤ lb)
    (hle : lb ≤ ub) (hgreatest : ub ≤ Word.maxValue) (count : Nat) :
    (m.newVars lb ub count).1 = (List.range' box.size count).map Var.mk := by
  induction count generalizing m box with
  | zero => rfl
  | succ count ih =>
      have hrest := ih (h.newVar hleast hle hgreatest)
      rw [Array.size_push] at hrest
      rw [List.range'_succ, List.map_cons, ← hrest, ← h.newVar_fst lb ub]
      rfl

theorem newVars (h : Poses box allowed labelled m) (hleast : Word.minValue ≤ lb) (hle : lb ≤ ub)
    (hgreatest : ub ≤ Word.maxValue) (count : Nat) :
    Poses (box ++ Array.replicate count ⟨lb, ub⟩) allowed labelled (m.newVars lb ub count).2 := by
  induction count generalizing m box with
  | zero =>
      rw [Array.replicate_zero, Array.append_empty]
      exact h
  | succ count ih =>
      have hrest := ih (h.newVar hleast hle hgreatest)
      rw [Array.replicate_succ', ← Array.append_assoc]
      exact hrest

end Variables

section Constraints

theorem post (h : Poses box allowed labelled m) (p : Posting) (hdistinct : p.Distinct)
    (hvars : ∀ x ∈ p.vars, x.index < box.size) :
    Poses box (allowed ∩ { value | p.Holds value }) labelled (m.post p.constraint).2 := by
  obtain ⟨asked, ps, hreachable, hdistincts, hallowed⟩ := h.reachable
  have hposted := hreachable.post p fun x hx => h.has (hvars x hx)
  have heq := post_eq h.failure p.constraint
  refine ⟨?_, ⟨asked, ps ++ [p], hposted, ?_, ?_⟩, ?_, ?_⟩
  · rw [heq]
    exact h.store_eq
  · rw [List.forall_mem_append, List.forall_mem_singleton]
    exact ⟨hdistincts, hdistinct⟩
  · intro value
    rw [List.forall_mem_append, List.forall_mem_singleton, ← hallowed]
    exact Iff.rfl
  · rw [heq]
    exact h.splitting
  · rw [heq]
    exact h.labels

theorem postPrecedence (h : Poses box allowed labelled m) {x y : Var} (gap : Int) (hne : x ≠ y)
    (hx : x.index < box.size) (hy : y.index < box.size) :
    Poses box (allowed ∩ { value | value x + gap ≤ value y }) labelled
      (Model.postPrecedence m x gap y).2 := by
  apply h.post (.precedence x gap y) hne
  intro z hz
  rcases List.mem_pair.mp hz with rfl | rfl
  · exact hx
  · exact hy

theorem postNonOverlap (h : Poses box allowed labelled m) {xs ys : List Var}
    {widths heights : List Int} (hxs : ∀ x ∈ xs, x.index < box.size)
    (hys : ∀ y ∈ ys, y.index < box.size)
    (hposted : Model.postNonOverlap m xs widths ys heights = .ok n) :
    ∃ widths' heights', widths'.map Extent.length = widths ∧
      heights'.map Extent.length = heights ∧
        Poses box (allowed ∩ { value | NonOverlap.Holds ⟨rectangles xs widths' ys heights'⟩ value })
          labelled n := by
  obtain ⟨widths', heights', hwidths, hheights, rfl⟩ := postNonOverlap_eq_ok hposted
  refine ⟨widths', heights', hwidths, hheights, ?_⟩
  split
  · apply h.post (.nonOverlap (rectangles xs widths' ys heights')) trivial
    intro z hz
    rcases List.mem_flatMap.mp hz with ⟨r, hr, hcorner⟩
    obtain ⟨hx, hy⟩ := mem_of_mem_rectangles hr
    rcases List.mem_pair.mp hcorner with rfl | rfl
    · exact hxs _ hx
    · exact hys _ hy
  · rename_i hfew
    have hlength : (rectangles xs widths' ys heights').length ≤ 1 := by
      unfold rectangles
      rw [List.length_zipWith, List.length_zip]
      omega
    have hall : { value | NonOverlap.Holds ⟨rectangles xs widths' ys heights'⟩ value } = Set.univ :=
      Set.eq_univ_of_forall (NonOverlap.holds_of_length_le_one hlength)
    rw [hall, Set.inter_univ]
    exact h

end Constraints

section Strategies

theorem branch (h : Poses box allowed labelled m) (b : Strategy) (hfresh : b.IsFresh)
    (hsplitting : b.IsSplitting) (hfits : b.Addressable) :
    Poses box allowed (labelled ++ b.labels) (m.branch b).2 := by
  obtain ⟨asked, ps, hreachable, hdistinct, hallowed⟩ := h.reachable
  have hadded := hreachable.branch b hfresh
  have heq := branch_eq h.failure b
  refine ⟨?_, ⟨asked, ps, hadded, hdistinct, hallowed⟩, ?_, ?_⟩
  · rw [heq]
    exact h.store_eq
  · intro b' hb'
    rw [heq] at hb'
    rcases Array.mem_push.mp hb' with hmem | rfl
    · exact h.splitting b' hmem
    · exact ⟨hsplitting, hfits⟩
  · intro x hx
    rw [heq]
    rcases List.mem_append.mp hx with hold | hnew
    · obtain ⟨b', hb', hlabel⟩ := h.labels x hold
      exact ⟨b', Array.mem_push_of_mem b hb', hlabel⟩
    · exact ⟨b, Array.mem_push_self, hnew⟩

theorem label (h : Poses box allowed labelled m) (xs : List Var) (selection : Selection)
    (preference : Preference) (hfits : xs.length ≤ Choice.positions) :
    Poses box allowed (labelled ++ xs)
      (m.branch (.labelling (.ofVars xs selection preference))).2 :=
  h.branch (.labelling (.ofVars xs selection preference)) rfl trivial hfits

theorem bisect (h : Poses box allowed labelled m) {xs : List Var} {extents : List Int}
    {ratio : Float} {b : Bisection} (hfits : xs.length ≤ Choice.positions)
    (hb : Bisection.filtered xs extents ratio = .ok b) :
    Poses box allowed labelled (m.branch (.bisection b)).2 := by
  obtain ⟨hcursor, hsize⟩ := Bisection.filtered_eq_ok hb
  have hfresh : Strategy.IsFresh (.bisection b) := by
    unfold Strategy.IsFresh Strategy.rewound
    rw [← hcursor]
  rw [← List.append_nil labelled]
  exact h.branch (.bisection b) hfresh trivial (hsize.trans hfits)

theorem branchSlicing (h : Poses box allowed labelled m) {xs : List Var} {extents : List Int}
    {fraction : Float} {minExtent : Int} (hfits : xs.length ≤ Choice.positions)
    (hb : Model.branchSlicing m xs extents fraction minExtent = .ok n) :
    Poses box allowed labelled n := by
  obtain ⟨b, hcursor, hsize, rfl⟩ := branchSlicing_eq_ok hb
  have hfresh : Strategy.IsFresh (.slicing b) := by
    unfold Strategy.IsFresh Strategy.rewound
    rw [← hcursor]
  rw [← List.append_nil labelled]
  exact h.branch (.slicing b) hfresh trivial (hsize.trans hfits)

end Strategies

end Poses

end Model

namespace Search

variable {box : Table Interval} {allowed : Set (Var → Int)} {labelled : List Var} {m : Model}
  {objective : Objective} {budget : Budget} {verbosity : Level} {sols : List Solution}
  {t : Search Constraint Strategy}

/-- A search for the best assignment of a problem that has one returns it last. -/
theorem exists_optimum (h : Model.Poses box allowed labelled m)
    (hlabelled : ∀ x : Var, x.index < box.size → x ∈ labelled)
    (hreturns : (optimize m objective budget verbosity).Returns sols t)
    (hended : t.progress = .exhausted) {value : Var → Int}
    (hvalue : (Store.ofBox box).Allows value) (hallowed : value ∈ allowed) :
    ∃ sol, sols.getLast? = some sol ∧ (Store.ofBox box).Allows sol.assignment ∧
      sol.assignment ∈ allowed ∧
      (∀ x : Var, x.index < box.size → sol.store.value? x = .ok (some (sol.assignment x))) ∧
        ∀ other, (Store.ofBox box).Allows other → other ∈ allowed →
          ¬ objective.Prefers (other objective.var) (sol.assignment objective.var) := by
  obtain ⟨asked, ps, hreachable, hdistinct, hiff⟩ := h.reachable
  have hsatisfying : ∀ other, other ∈ m.satisfying ps ↔
      (Store.ofBox box).Allows other ∧ other ∈ allowed := by
    intro other
    rw [hiff, ← h.store_eq]
    exact Iff.rfl
  have hlabels : m.Labelled := by
    intro x hx
    rw [h.store_eq] at hx
    exact h.labels x (hlabelled x hx)
  have hsound := hreachable.sound h.failure
  have hstart : Covers m ps [] [] (optimize m objective budget verbosity) :=
    covers_start rfl rfl rfl
  have hnothing : Improves objective [] (optimize m objective budget verbosity) :=
    ⟨rfl, by simp, fun _ => rfl, by simp⟩
  have hcovers := hstart.afterSteps hsound h.splitting hreturns.steps
  have himproves := hnothing.afterSteps hsound hstart.explores hreturns.steps
  have hanswers := (hstart.explores.afterSteps (fun _ => hsound) hreturns.steps).2
  have hspent := not_improving_of_ended hcovers himproves hended
  have hne : sols ≠ [] := by
    intro hnone
    -- as long as there is no best value, every assignment improves
    apply hspent value ((hsatisfying value).mpr ⟨hvalue, hallowed⟩)
    intro _ best _ hbest
    rw [himproves.best_eq_none hnone] at hbest
    contradiction
  have hlast := List.getLast?_eq_some_getLast hne
  have hanswer := hanswers _ (List.getLast_mem hne)
  have hmem := hanswer.assignment_mem hsound hdistinct hlabels
  obtain ⟨-, hoptimal⟩ := himproves.optimum hsound hspent hlast hanswer hlabels
  rw [hsatisfying] at hmem
  refine ⟨_, hlast, hmem.1, hmem.2, ?_, ?_⟩
  · intro x hx
    exact hanswer.binds hlabels (h.has hx)
  · intro other hother hother'
    exact hoptimal other ((hsatisfying other).mpr ⟨hother, hother'⟩)

end Search

end FiniteDomain
