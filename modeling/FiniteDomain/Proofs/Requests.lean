import FiniteDomain.Model
import FiniteDomain.Proofs.Deciding
import FiniteDomain.Proofs.Satisfaction
import FiniteDomain.Proofs.Scheduling

/-!
# Requests

The models that a program can make, by any sequence of requests: new variables, narrowings,
constraints, branchers, choices, commits and propagations.  A request may come at any time, also
after others have been propagated.

While a model is not failed, it is sound: its domains have values, no propagator is forgotten, and
what it remembers is true.  Each request keeps it so.
-/

namespace FiniteDomain

/-- A constraint as it is stated. -/
inductive Posting
  /-- `x + gap ≤ y`, for any gap. -/
  | precedence (x : Var) (gap : Int) (y : Var)
  | nonOverlap (rectangles : List Rectangle)
  | disequality (a b : Var)
deriving DecidableEq, Repr

namespace Posting

/-- The propagator that is posted for it. -/
def constraint : Posting → Constraint
  | precedence x gap y => .precedence (.between x gap y)
  | nonOverlap rectangles => .nonOverlap ⟨rectangles⟩
  | disequality a b => .disequality ⟨a, b⟩

def vars (p : Posting) : List Var :=
  Propagator.watched p.constraint

/-- Do these values satisfy it? -/
def Holds (value : Var → Int) : Posting → Prop
  | precedence x gap y => value x + gap ≤ value y
  | nonOverlap rectangles => NonOverlap.Holds ⟨rectangles⟩ value
  | disequality a b => value a ≠ value b

instance (value : Var → Int) : DecidablePred (Holds value)
  | precedence x gap y => inferInstanceAs (Decidable (value x + gap ≤ value y))
  | nonOverlap rectangles => inferInstanceAs (Decidable (NonOverlap.Holds ⟨rectangles⟩ value))
  | disequality a b => inferInstanceAs (Decidable (value a ≠ value b))

/-- A precedence relates two different variables. -/
def Distinct : Posting → Prop
  | precedence x _ y => x ≠ y
  | _ => True

instance : DecidablePred Distinct
  | precedence x _ y => inferInstanceAs (Decidable (x ≠ y))
  | nonOverlap _ => isTrue trivial
  | disequality _ _ => isTrue trivial

theorem admissible (p : Posting) : Filtering.Admissible p.constraint := by
  cases p with
  | precedence x gap y => exact Precedence.admissible_between x gap y
  | nonOverlap rectangles => trivial
  | disequality a b => trivial

theorem settles_iff {p : Posting} : Filtering.Settles p.constraint ↔ p.Distinct := by
  cases p <;> rfl

/-- On values that domains may hold, the cut of a gap makes no difference. -/
theorem holds_iff {p : Posting} {value : Var → Int}
    (hrange : ∀ x ∈ p.vars, Word.minValue ≤ value x ∧ value x ≤ Word.maxValue) :
    p.Holds value ↔ p.constraint.Holds value := by
  cases p with
  | precedence x gap y =>
      have hx := hrange x (by simp [vars, constraint, Precedence.between, Propagator.watched])
      have hy := hrange y (by simp [vars, constraint, Precedence.between, Propagator.watched])
      exact (Precedence.between_gap_le_iff hx hy).symm
  | nonOverlap rectangles => rfl
  | disequality a b => rfl

end Posting

/-- The store of the given domains, in which nothing has happened yet. -/
def Store.ofBox (box : Table Interval) : Store :=
  ⟨box, #[], none⟩

namespace Store

/-- A new variable does not change the domains of the old ones, and it makes the store fail if it has
not got all the values that were asked for. -/
theorem newVar_cases (s : Store) (lb ub : Int) :
    (¬ (Word.minValue ≤ lb ∧ lb ≤ ub ∧ ub ≤ Word.maxValue) ∧ (s.newVar lb ub).2.failure ≠ none) ∨
      ((Word.minValue ≤ lb ∧ lb ≤ ub ∧ ub ≤ Word.maxValue) ∧
        (s.newVar lb ub).2 = { s with domains := s.domains.push ⟨lb, ub⟩ }) := by
  unfold newVar
  by_cases hrefused : ub < lb ∨ lb < Word.minValue ∨ Word.maxValue < ub
  · left
    rw [if_pos hrefused]
    exact ⟨by omega, failure_fail_ne_none _ _⟩
  · right
    rw [if_neg hrefused]
    simp only [not_or, Int.not_lt] at hrefused
    rcases hrefused with ⟨hle, hleast, hgreatest⟩
    refine ⟨⟨hleast, hle, hgreatest⟩, ?_⟩
    rw [max_eq_left hleast, min_eq_left hgreatest]

end Store

/-- The values that a new variable is given: none, if some of those asked for cannot be held. -/
def Interval.granted (lb ub : Int) : Interval :=
  if lb < Word.minValue ∨ Word.maxValue < ub then ⟨1, 0⟩ else ⟨lb, ub⟩

/-- The bounds of a variable cut to an interval. -/
def Table.cut (box : Table Interval) (x : Var) (d : Interval) : Table Interval :=
  box.modify x.index fun e => e.inter d

/-- A strategy that has not been asked yet. -/
def Strategy.IsFresh (b : Strategy) : Prop :=
  b.rewound = b

/-- The models that requests lead to.  Along with the model go the bounds that were asked for, by
narrowings and by alternatives, and the constraints that were posted. -/
inductive Model.Reachable : Table Interval → List Posting → Model → Prop
  | empty : Reachable #[] [] Node.empty
  | newVar {asked : Table Interval} {ps : List Posting} {m : Model} (hm : Reachable asked ps m)
      (lb ub : Int) :
      Reachable (asked.push (.granted lb ub)) ps (m.newVar lb ub).2
  | narrow {asked : Table Interval} {ps : List Posting} {m n : Model} {x : Var} {lb ub : Int}
      {reply : Except Wipeout Bool} (hm : Reachable asked ps m)
      (h : m.update (Update.narrow x lb ub) = .ok (reply, n)) :
      Reachable (asked.cut x ⟨lb, ub⟩) ps n
  | post {asked : Table Interval} {ps : List Posting} {m : Model} (hm : Reachable asked ps m)
      (p : Posting) (hvars : ∀ x ∈ p.vars, m.store.Has x) :
      Reachable asked (ps ++ [p]) (m.post p.constraint).2
  | branch {asked : Table Interval} {ps : List Posting} {m : Model} (hm : Reachable asked ps m)
      (b : Strategy) (hfresh : b.IsFresh) :
      Reachable asked ps (m.branch b).2
  | choose {asked : Table Interval} {ps : List Posting} {m n : Model} {choice : Option Choice}
      (hm : Reachable asked ps m) (h : m.choose = .ok (choice, n)) :
      Reachable asked ps n
  | commit {asked : Table Interval} {ps : List Posting} {m n : Model} {c : Choice}
      {alternative : Nat} {b : Strategy} {x : Var} {d : Interval} {reply : Except Wipeout Unit}
      (hm : Reachable asked ps m) (hb : m.branchers[c.brancher]? = some b)
      (hrange : b.range c alternative = .ok (x, d))
      (h : m.commit c alternative = .ok (reply, n)) :
      Reachable (asked.cut x d) ps n
  | propagate {asked : Table Interval} {ps : List Posting} {m n : Model}
      {failure : Option Wipeout} {events : List Event} (hm : Reachable asked ps m)
      (h : m.propagate = .ok (failure, events, n)) :
      Reachable asked ps n

namespace Model

/-- What holds of a model that is not failed. -/
structure Sound (ps : List Posting) (m : Model) : Prop where
  consistent : m.store.Consistent
  coherent : m.engine.Coherent none m.store
  propagators : m.engine.propagators = ps.map Posting.constraint
  remembers : m.Remembers

section Operations

variable {ps : List Posting} {m n : Model} {t : Store}

theorem sound_empty : Sound [] Node.empty where
  consistent :=
    { failure := rfl
      view := fun _ => le_rfl
      least := fun _ => show Word.minValue ≤ 0 by decide
      greatest := fun _ => show 0 ≤ Word.maxValue by decide }
  coherent :=
    { wellFormed :=
        { agenda := Agenda.consistent_empty
          queued := rfl
          watched := fun _ _ h => by simp [Node.empty, Engine.empty] at h
          watchers := fun x id h => by simp [Node.empty, Engine.empty] at h }
      admissible := fun _ h => by simp [Node.empty, Engine.empty, Engine.propagators] at h
      has := fun _ h => by simp [Node.empty, Engine.empty, Engine.propagators] at h
      retired := fun _ _ h => by simp [Node.empty, Engine.empty] at h
      active := fun _ _ h => by simp [Node.empty, Engine.empty] at h }
  propagators := rfl
  remembers :=
    { active := le_rfl
      strategies := fun _ _ h => by simp [Node.empty] at h
      done := fun _ _ h => by simp [Node.empty] at h }

theorem Sound.afterNarrowing (h : m.Sound ps) (hst : m.store.Narrowing t)
    (ht : t.failure = none) : Sound ps { m with store := t } where
  consistent := hst.consistent h.consistent ht
  coherent := h.coherent.narrowing hst
  propagators := h.propagators
  remembers := h.remembers.below (.of_narrowing hst) (hst.view_consistent h.consistent.view)

theorem newVar_cases (m : Model) (lb ub : Int) :
    (¬ (Word.minValue ≤ lb ∧ lb ≤ ub ∧ ub ≤ Word.maxValue) ∧
        (m.newVar lb ub).2.store.failure ≠ none) ∨
      ((Word.minValue ≤ lb ∧ lb ≤ ub ∧ ub ≤ Word.maxValue) ∧
        (m.newVar lb ub).2 =
          { m with store := { m.store with domains := m.store.domains.push ⟨lb, ub⟩ } }) := by
  rcases m.store.newVar_cases lb ub with hrefused | ⟨hrange, heq⟩
  · exact Or.inl hrefused
  · right
    refine ⟨hrange, ?_⟩
    rw [← heq]
    rfl

end Operations

end Model

section Push

variable {s : Store} {d : Interval}

theorem Table.view_push (t : Table Interval) (d : Interval) (x : Var) :
    Table.view (t.push d) x = if x.index = t.size then d else t.view x := by
  unfold Table.view
  rw [Array.getElem?_push]
  split <;> rfl

theorem Store.view_push (x : Var) :
    ({ s with domains := s.domains.push d } : Store).view x =
      if x.index = s.domains.size then d else s.view x :=
  Table.view_push _ _ _

theorem Store.has_push {x : Var} :
    ({ s with domains := s.domains.push d } : Store).Has x ↔ s.Has x ∨ x.index = s.domains.size := by
  unfold Store.Has
  simp only [Array.size_push]
  omega

theorem Store.view_push_of_has {x : Var} (hx : s.Has x) :
    ({ s with domains := s.domains.push d } : Store).view x = s.view x := by
  rw [Store.view_push, if_neg (Nat.ne_of_lt hx)]

theorem Store.Consistent.push (hs : s.Consistent) (hleast : Word.minValue ≤ d.lb)
    (hd : d.lb ≤ d.ub) (hgreatest : d.ub ≤ Word.maxValue) :
    ({ s with domains := s.domains.push d } : Store).Consistent where
  failure := hs.failure
  view x := by
    rw [Store.view_push]
    split
    · exact hd
    · exact hs.view x
  least x := by
    rw [Store.view_push]
    split
    · exact hleast
    · exact hs.least x
  greatest x := by
    rw [Store.view_push]
    split
    · exact hgreatest
    · exact hs.greatest x

end Push

namespace Model

variable {ps : List Posting} {m n : Model} {t : Store}

theorem Sound.afterNewVar (h : m.Sound ps) {lb ub : Int}
    (hfine : (m.newVar lb ub).2.store.failure = none) : Sound ps (m.newVar lb ub).2 := by
  rcases newVar_cases m lb ub with ⟨-, hfailed⟩ | ⟨⟨hleast, hle, hgreatest⟩, heq⟩
  · exact absurd hfine hfailed
  · rw [heq]
    have hsame : ∀ x, m.store.Has x →
        ({ m.store with domains := m.store.domains.push ⟨lb, ub⟩ } : Store).Has x ∧
          ({ m.store with domains := m.store.domains.push ⟨lb, ub⟩ } : Store).view x =
            m.store.view x := by
      intro x hx
      exact ⟨Store.has_push.mpr (Or.inl hx), Store.view_push_of_has hx⟩
    have hdecides : ∀ x, m.store.Decides x →
        ({ m.store with domains := m.store.domains.push ⟨lb, ub⟩ } : Store).Decides x := by
      rintro x ⟨hx, hbound⟩
      obtain ⟨hhas, hview⟩ := hsame x hx
      refine ⟨hhas, ?_⟩
      rw [hview]
      exact hbound
    refine ⟨h.consistent.push hleast hle hgreatest, h.coherent.congr hsame rfl, h.propagators,
      h.remembers.active, ?_, ?_⟩
    · intro i b hb
      exact (h.remembers.strategies i b hb).of_decides hdecides
    · intro i b hi hb x hx
      exact hdecides x (h.remembers.done i b hi hb x hx)

theorem post_eq (hm : m.store.failure = none) (p : Constraint) :
    (m.post p).2 = { m with engine := (m.engine.add p).2 } := by
  have hfine : m.isFailed = false := by
    unfold Node.isFailed Store.isFailed
    rw [hm]
    rfl
  unfold Node.post
  rw [hfine]
  rfl

theorem branch_eq (hm : m.store.failure = none) (b : Strategy) :
    (m.branch b).2 = { m with branchers := m.branchers.push b } := by
  have hfine : m.isFailed = false := by
    unfold Node.isFailed Store.isFailed
    rw [hm]
    rfl
  unfold Node.branch
  rw [hfine]
  rfl

theorem Sound.afterPost (h : m.Sound ps) (p : Posting) (hvars : ∀ x ∈ p.vars, m.store.Has x) :
    Sound (ps ++ [p]) (m.post p.constraint).2 := by
  rw [post_eq h.consistent.failure]
  refine ⟨h.consistent, h.coherent.add p.admissible hvars, ?_, ?_⟩
  · rw [Engine.propagators_add, h.propagators, List.map_append]
    rfl
  · exact ⟨h.remembers.active, h.remembers.strategies, h.remembers.done⟩

theorem Sound.afterBranch (h : m.Sound ps) {b : Strategy} (hfresh : b.IsFresh) :
    Sound ps (m.branch b).2 := by
  have hactive := h.remembers.active
  rw [branch_eq h.consistent.failure]
  refine ⟨h.consistent, h.coherent, h.propagators, ?_, ?_, ?_⟩
  · rw [Array.size_push]
    exact Nat.le_succ_of_le hactive
  · intro i other hother
    rw [Array.getElem?_push] at hother
    split at hother
    · rw [Option.some.injEq] at hother
      subst hother
      exact Strategy.remembers_of_rewound_eq hfresh
    · exact h.remembers.strategies i other hother
  · intro i other hi hother
    dsimp only at hi
    rw [Array.getElem?_push, if_neg (by omega)] at hother
    exact h.remembers.done i other hi hother

theorem Sound.afterChoose (h : m.Sound ps) {choice : Option Choice}
    (hchoose : m.choose = .ok (choice, n)) : n.Sound ps := by
  have hchooses := h.remembers.chooses hchoose
  refine ⟨?_, ?_, ?_, hchooses.remembers⟩
  · rw [hchooses.store]
    exact h.consistent
  · rw [hchooses.store, hchooses.engine]
    exact h.coherent
  · rw [hchooses.engine]
    exact h.propagators

theorem Sound.propagate_eq_ok (h : m.Sound ps) :
    ∃ r, m.propagate =
        .ok (r.failure, r.events, { m with engine := r.engine, store := r.store }) ∧
      m.engine.Reaches m.store r := by
  obtain ⟨r, hr, hreaches⟩ := Engine.propagate_reaches h.consistent h.coherent
  refine ⟨r, ?_, hreaches⟩
  unfold Node.propagate
  rw [hr]
  rfl

theorem Sound.afterPropagate (h : m.Sound ps) {r : Propagation Constraint}
    (hreaches : m.engine.Reaches m.store r) (hnone : r.failure = none) :
    Sound ps { m with engine := r.engine, store := r.store } where
  consistent := hreaches.consistent hnone
  coherent := hreaches.coherent hnone
  propagators := hreaches.propagators.trans h.propagators
  remembers := by
    have hstore := h.remembers.below hreaches.below (hreaches.consistent hnone).view
    exact ⟨hstore.active, hstore.strategies, hstore.done⟩

theorem failure_eq_none_of_choose {choice : Option Choice} (h : m.choose = .ok (choice, n)) :
    m.store.failure = none := by
  unfold Node.choose at h
  obtain ⟨_, hcheck, -⟩ := Fault.bind_eq_ok_iff.mp h
  by_contra hne
  have hfailed : m.isFailed = true := Option.isSome_iff_ne_none.mpr hne
  rw [hfailed] at hcheck
  contradiction

/-- Nothing runs in a failed model. -/
theorem propagate_of_failure {w : Wipeout} (hm : m.store.failure = some w) :
    m.propagate = .ok (some w, [], { m with engine := m.engine.clearAgenda }) := by
  unfold Node.propagate
  rw [Engine.propagate_of_failure hm]
  rfl

theorem failure_eq_none_of_propagate {failure : Option Wipeout} {events : List Event}
    (h : m.propagate = .ok (failure, events, n)) (hfine : failure = none ∨ n.store.failure = none) :
    m.store.failure = none := by
  cases hm : m.store.failure with
  | none => rfl
  | some w =>
      rw [propagate_of_failure hm, Except.ok.injEq, Prod.mk.injEq, Prod.mk.injEq] at h
      obtain ⟨rfl, -, rfl⟩ := h
      rcases hfine with hnone | hfine
      · contradiction
      · exact absurd hfine (by simp [hm])

theorem commit_eq_ok {c : Choice} {alternative : Nat} {reply : Except Wipeout Unit}
    (h : m.commit c alternative = .ok (reply, n)) :
    alternative < c.alternatives ∧ n = { m with store := n.store } ∧
      ∃ b x d changed, m.branchers[c.brancher]? = some b ∧ b.range c alternative = .ok (x, d) ∧
        m.store.narrow x d.lb d.ub = .ok (changed, n.store) ∧ reply = changed.map fun _ => () := by
  unfold Node.commit at h
  rcases Fault.bind_eq_ok_iff.mp h with ⟨_, hcheck, hfetch⟩
  rcases Fault.bind_eq_ok_iff.mp hfetch with ⟨b, hb, hupdate⟩
  obtain ⟨hcommit, heq⟩ := Node.update_eq_ok hupdate
  obtain ⟨x, d, changed, hrange, hnarrow, hreply⟩ := Strategy.commit_eq_ok hcommit
  refine ⟨?_, heq, b, x, d, changed, Table.fetch_eq_ok_iff.mp hb, hrange, hnarrow, hreply⟩
  by_contra hnot
  rw [decide_eq_false hnot] at hcheck
  contradiction

end Model

section Filters

variable {vars : List Var} {extents : List Int}

theorem Slicing.ofItems_eq_ok {fraction : Float} {minExtent : Int} {b : Slicing}
    (h : ofItems vars extents fraction minExtent = .ok b) :
    b.cursor = 0 ∧ b.items.size ≤ vars.length := by
  unfold ofItems at h
  rcases Fault.bind_eq_ok_iff.mp h with ⟨_, -, hsizes⟩
  rcases Fault.bind_eq_ok_iff.mp hsizes with ⟨extents', -, hitems⟩
  split at hitems
  · simp only [pure, Except.pure, Except.ok.injEq] at hitems
    subst hitems
    simp
  · contradiction

theorem Bisection.filtered_eq_ok {ratio : Float} {b : Bisection}
    (h : filtered vars extents ratio = .ok b) : b.cursor = 0 ∧ b.entries.size ≤ vars.length := by
  unfold filtered at h
  rcases Fault.bind_eq_ok_iff.mp h with ⟨_, -, hsizes⟩
  rcases Fault.bind_eq_ok_iff.mp hsizes with ⟨extents', -, hentries⟩
  simp only [pure, Except.pure, Except.ok.injEq] at hentries
  subst hentries
  simp

end Filters

namespace Model

theorem mem_of_mem_rectangles {xs ys : List Var} {widths heights : List Extent} {r : Rectangle}
    (hr : r ∈ rectangles xs widths ys heights) : r.x ∈ xs ∧ r.y ∈ ys := by
  unfold rectangles at hr
  rw [← List.map_uncurry_zip_eq_zipWith] at hr
  rcases List.mem_map.mp hr with ⟨⟨⟨x, width⟩, ⟨y, height⟩⟩, hmem, rfl⟩
  obtain ⟨hx, hy⟩ := List.of_mem_zip hmem
  exact ⟨(List.of_mem_zip hx).1, (List.of_mem_zip hy).1⟩

/-- Rectangles with the given extents are posted, unless there are less than two of them. -/
theorem postNonOverlap_eq_ok {m n : Model} {xs ys : List Var} {widths heights : List Int}
    (h : Model.postNonOverlap m xs widths ys heights = .ok n) :
    ∃ widths' heights', widths'.map Extent.length = widths ∧
      heights'.map Extent.length = heights ∧
        n = if 1 < xs.length then
            (m.post (.nonOverlap ⟨rectangles xs widths' ys heights'⟩)).2
          else m := by
  unfold Model.postNonOverlap at h
  rcases Fault.bind_eq_ok_iff.mp h with ⟨_, -, hsizes⟩
  rcases Fault.bind_eq_ok_iff.mp hsizes with ⟨widths', hwidths, hchecked⟩
  rcases Fault.bind_eq_ok_iff.mp hchecked with ⟨heights', hheights, hposted⟩
  refine ⟨widths', heights', ModelError.length_of_checkExtents hwidths,
    ModelError.length_of_checkExtents hheights, ?_⟩
  split at hposted
  · rename_i hmany
    rw [if_pos hmany]
    exact (Except.ok.inj hposted).symm
  · rename_i hfew
    rw [if_neg hfew]
    exact (Except.ok.inj hposted).symm

/-- The slicing that is added has not been asked yet. -/
theorem branchSlicing_eq_ok {m n : Model} {xs : List Var} {extents : List Int} {fraction : Float}
    {minExtent : Int} (h : Model.branchSlicing m xs extents fraction minExtent = .ok n) :
    ∃ b : Slicing, b.cursor = 0 ∧ b.items.size ≤ xs.length ∧ n = (m.branch (.slicing b)).2 := by
  unfold Model.branchSlicing at h
  rcases Fault.bind_eq_ok_iff.mp h with ⟨b, hb, hadded⟩
  simp only [pure, Except.pure, Except.ok.injEq] at hadded
  obtain ⟨hcursor, hsize⟩ := Slicing.ofItems_eq_ok hb
  exact ⟨b, hcursor, hsize, hadded.symm⟩

namespace Reachable

variable {asked : Table Interval} {ps : List Posting} {m n : Model}

theorem newVars (hm : Reachable asked ps m) (lb ub : Int) (count : Nat) :
    Reachable (asked ++ Array.replicate count (.granted lb ub)) ps (m.newVars lb ub count).2 := by
  induction count generalizing asked m with
  | zero =>
      rw [Array.replicate_zero, Array.append_empty]
      exact hm
  | succ count ih =>
      have hrest := ih (hm.newVar lb ub)
      rw [Array.replicate_succ', ← Array.append_assoc]
      exact hrest

theorem postPrecedence (hm : Reachable asked ps m) {x y : Var} (gap : Int) (hx : m.store.Has x)
    (hy : m.store.Has y) :
    Reachable asked (ps ++ [.precedence x gap y]) (Model.postPrecedence m x gap y).2 := by
  apply hm.post (.precedence x gap y)
  intro z hz
  rcases List.mem_pair.mp hz with rfl | rfl
  · exact hx
  · exact hy

theorem postNonOverlap (hm : Reachable asked ps m) {xs ys : List Var} {widths heights : List Int}
    (hxs : ∀ x ∈ xs, m.store.Has x) (hys : ∀ y ∈ ys, m.store.Has y)
    (h : Model.postNonOverlap m xs widths ys heights = .ok n) :
    (xs.length ≤ 1 ∧ n = m) ∨ ∃ widths' heights', widths'.map Extent.length = widths ∧
      heights'.map Extent.length = heights ∧
        Reachable asked (ps ++ [.nonOverlap (rectangles xs widths' ys heights')]) n := by
  obtain ⟨widths', heights', hwidths, hheights, rfl⟩ := postNonOverlap_eq_ok h
  by_cases hfew : xs.length ≤ 1
  · exact Or.inl ⟨hfew, if_neg (by omega)⟩
  · rw [if_pos (by omega)]
    refine Or.inr ⟨widths', heights', hwidths, hheights, ?_⟩
    apply hm.post (.nonOverlap _)
    intro z hz
    rcases List.mem_flatMap.mp hz with ⟨r, hr, hcorner⟩
    obtain ⟨hx, hy⟩ := mem_of_mem_rectangles hr
    rcases List.mem_pair.mp hcorner with rfl | rfl
    · exact hxs _ hx
    · exact hys _ hy

theorem branchSlicing (hm : Reachable asked ps m) {xs : List Var} {extents : List Int}
    {fraction : Float} {minExtent : Int}
    (h : Model.branchSlicing m xs extents fraction minExtent = .ok n) : Reachable asked ps n := by
  obtain ⟨b, hcursor, -, rfl⟩ := branchSlicing_eq_ok h
  apply hm.branch
  unfold Strategy.IsFresh Strategy.rewound
  rw [← hcursor]

end Reachable

/-- Two variables from 0 to 2, the first one less than the second, both to be labelled. -/
def chain : Model :=
  let (x, m) := (Node.empty : Model).newVar 0 2
  let (y, m) := m.newVar 0 2
  let m : Model := (Model.postPrecedence m x 1 y).2
  (m.branch (.labelling (.ascending [x, y]))).2

theorem reachable_chain :
    Reachable #[⟨0, 2⟩, ⟨0, 2⟩] [.precedence ⟨0⟩ 1 ⟨1⟩] chain := by
  have hvars := (Reachable.empty.newVar 0 2).newVar 0 2
  have hposted := hvars.postPrecedence 1 (x := ⟨0⟩) (y := ⟨1⟩) (by decide) (by decide)
  exact hposted.branch (.labelling (.ascending [⟨0⟩, ⟨1⟩])) rfl

end Model

end FiniteDomain
