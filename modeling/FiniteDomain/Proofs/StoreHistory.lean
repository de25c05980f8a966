import FiniteDomain.Proofs.Requests
import FiniteDomain.Proofs.Serving

/-!
# Histories of a store

A store does not know its past: it holds the present domains, the changes since the last drain and
the first failure.  Still all three can be told from the operations that led to it.  A domain is what
the variable was created with, cut by the ranges that were asked for, in any order.  A change is
recorded if the domain is not what it was when the changes were drained last, or when the variable was
created; domains only shrink, so that it will never be again.  The failure is the first that occurred,
and from then on nothing happens to the variables that exist.
-/

namespace FiniteDomain

theorem Fault.map_eq_ok_iff {α β : Type} {x : Except Fault α} {f : α → β} {b : β} :
    x.map f = .ok b ↔ ∃ a, x = .ok a ∧ f a = b := by
  cases x with
  | error e => simp [Except.map]
  | ok a => simp [Except.map]

namespace Interval

instance : RightCommutative inter where
  right_comm d e f := by
    simp only [inter, Interval.mk.injEq]
    omega

theorem foldl_inter_cons (d e : Interval) (ds : List Interval) :
    (e :: ds).foldl inter d = (ds.foldl inter d).inter e := by
  have hperm : (ds ++ [e]).Perm (e :: ds) := List.perm_append_singleton e ds
  rw [← hperm.foldl_eq d, List.foldl_append]
  rfl

end Interval

/-- What can be asked for the domain of a variable. -/
inductive Restriction
  | narrow (lb ub : Int)
  | setLower (lb : Int)
  | setUpper (ub : Int)
  | assign (value : Int)
deriving DecidableEq, Repr

namespace Restriction

def update (x : Var) : Restriction → Update Bool
  | narrow lb ub => Update.narrow x lb ub
  | setLower lb => Update.setLower x lb
  | setUpper ub => Update.setUpper x ub
  | assign value => Update.assign x value

/-- The values that it leaves. -/
def range : Restriction → Interval
  | narrow lb ub => ⟨lb, ub⟩
  | setLower lb => ⟨lb, Word.greatest⟩
  | setUpper ub => ⟨Word.least, ub⟩
  | assign value => .singleton value

theorem apply_update (r : Restriction) (x : Var) (s : Store) :
    (r.update x).apply s = s.narrow x r.range.lb r.range.ub := by
  cases r <;> rfl

end Restriction

namespace Store

inductive Operation
  | newVar (lb ub : Int)
  | restrict (x : Var) (r : Restriction)
  | wipeOut (x : Var)
  | drain
deriving DecidableEq, Repr

namespace Operation

def perform : Operation → Store → Except Fault Store
  | newVar lb ub, s => .ok (s.newVar lb ub).2
  | restrict x r, s => ((r.update x).apply s).map Prod.snd
  | wipeOut x, s => (s.wipeOut x).map Prod.snd
  | drain, s => .ok s.drain.2

/-- The variable that is named, if one is, exists. -/
def AddressedTo (s : Store) : Operation → Prop
  | restrict x _ => s.Has x
  | wipeOut x => s.Has x
  | _ => True

/-- The domain that a variable is created with. -/
def created? : Operation → Option Interval
  | newVar lb ub => some ⟨lb, ub⟩
  | _ => none

/-- The range that is applied to the variable. -/
def range? (x : Var) : Operation → Option Interval
  | restrict y r => if y = x then some r.range else none
  | _ => none

/-- The failure that occurs.  A store that has failed refuses restrictions, which is no new one. -/
def failure? (s : Store) : Operation → Option Wipeout
  | newVar lb ub =>
    if Word.minValue ≤ lb ∧ lb ≤ ub ∧ ub ≤ Word.maxValue then none
    else some ⟨⟨s.domains.size⟩, lb, ub⟩
  | restrict x r =>
    let left := (s.view x).inter r.range
    if s.failure = none ∧ left.ub < left.lb then some ⟨x, left.lb, left.ub⟩ else none
  | wipeOut x => some ⟨x, min ((s.view x).ub + 1) Word.greatest, (s.view x).ub⟩
  | drain => none

end Operation

section Performing

variable {s t : Store} {x y : Var} {d : Interval}

theorem domains_newVar (s : Store) (lb ub : Int) : (s.newVar lb ub).2.domains =
    s.domains.push ⟨max lb Word.minValue, min ub Word.maxValue⟩ := by
  unfold newVar
  dsimp only
  split
  · rw [domains_fail]
  · rfl

theorem changes_newVar (s : Store) (lb ub : Int) : (s.newVar lb ub).2.changes = s.changes := by
  unfold newVar
  dsimp only
  split
  · rw [changes_fail]
  · rfl

theorem failure_fail (s : Store) (w : Wipeout) : (s.fail w).failure = s.failure.or (some w) := by
  unfold fail
  split
  · rename_i v hv
    rw [hv]
    rfl
  · rename_i hnone
    rw [hnone]
    rfl

theorem mem_changes_cut (hx : s.Has x) :
    y ∈ (s.cut x d).changes ↔ y ∈ s.changes ∨ (s.cut x d).view y ≠ s.view y := by
  rw [view_cut hx]
  by_cases hle : s.view x ≤ d
  · rw [cut_of_le hle, View.cut_eq_self_iff.mpr hle]
    simp
  · have hchanges : (s.cut x d).changes = s.changes.push x := by
      unfold Store.cut
      rw [if_neg (by rwa [Interval.inter_eq_left_iff])]
    rw [hchanges, Array.mem_push]
    by_cases hyx : y = x
    · rw [hyx, View.cut_self, ne_eq, Interval.inter_eq_left_iff]
      simp [hle]
    · rw [View.cut_of_ne _ hyx]
      simp [hyx]

/-- What an operation does to a store. -/
structure Effect (op : Operation) (s t : Store) : Prop where
  failure : t.failure = s.failure.or (op.failure? s)
  size : t.domains.size = s.domains.size + op.created?.toList.length
  view : ∀ x, s.Has x → t.view x =
    if t.failure = none then (op.range? x).elim (s.view x) (s.view x).inter else s.view x
  created : ∀ d ∈ op.created?, t.failure = none → t.view ⟨s.domains.size⟩ = d
  mem_changes : op ≠ .drain → ∀ x, x ∈ t.changes ↔ x ∈ s.changes ∨ s.Has x ∧ t.view x ≠ s.view x
  changes : op = .drain → t.changes = #[]
  consistent : s.Consistent → t.failure = none → t.Consistent

theorem failure_newVar_eq (s : Store) (lb ub : Int) : (s.newVar lb ub).2.failure =
    s.failure.or (Operation.failure? s (.newVar lb ub)) := by
  dsimp only [Operation.failure?]
  rcases s.newVar_cases lb ub with ⟨hrefused, -⟩ | ⟨hfine, heq⟩
  · have hbounds : ub < lb ∨ lb < Word.minValue ∨ Word.maxValue < ub := by omega
    unfold newVar
    rw [if_neg hrefused, if_pos hbounds, failure_fail]
  · rw [heq, if_pos hfine, Option.or_none]

theorem failure_restrict {r : Restriction} {reply : Except Wipeout Bool} (hx : s.Has x)
    (h : (r.update x).apply s = .ok (reply, t)) :
    t.failure = s.failure.or (Operation.failure? s (.restrict x r)) := by
  rw [Restriction.apply_update] at h
  dsimp only [Operation.failure?]
  cases hs : s.failure with
  | some w =>
      rw [narrow_of_failed hs] at h
      rw [← (Prod.mk.inj (Except.ok.inj h)).2, hs]
      rfl
  | none =>
      rw [narrow_of_has hs hx] at h
      dsimp only at h
      rw [Option.none_or]
      split at h
      · rename_i hempty
        have hcrossed := of_decide_eq_true hempty
        rw [← (Prod.mk.inj (Except.ok.inj h)).2, if_pos ⟨rfl, hcrossed⟩]
      · rename_i hleft
        have hcrossed := of_decide_eq_false (Bool.not_eq_true _ ▸ hleft)
        rw [← (Prod.mk.inj (Except.ok.inj h)).2, failure_cut, hs, if_neg fun hboth => hcrossed hboth.2]

theorem effect_newVar (s : Store) (lb ub : Int) :
    Effect (.newVar lb ub) s (s.newVar lb ub).2 := by
  have hview : ∀ x, s.Has x → (s.newVar lb ub).2.view x = s.view x := by
    intro x hx
    unfold Store.view
    rw [domains_newVar, Table.view_push, if_neg (Nat.ne_of_lt hx)]
  constructor
  · exact failure_newVar_eq s lb ub
  · rw [domains_newVar, Array.size_push]
    rfl
  · intro x hx
    rw [hview x hx]
    exact (ite_self _).symm
  · intro d hd hfine
    rw [← Option.some.inj hd]
    rcases s.newVar_cases lb ub with ⟨-, hfailed⟩ | ⟨-, heq⟩
    · exact absurd hfine hfailed
    · rw [heq, view_push, if_pos rfl]
  · intro _ x
    rw [changes_newVar]
    constructor
    · exact Or.inl
    · intro hx
      rcases hx with hx | ⟨hx, hne⟩
      · exact hx
      · exact absurd (hview x hx) hne
  · intro hdrain
    contradiction
  · intro hs hfine
    rcases s.newVar_cases lb ub with ⟨-, hfailed⟩ | ⟨⟨hleast, hle, hgreatest⟩, heq⟩
    · exact absurd hfine hfailed
    · rw [heq]
      exact hs.push hleast hle hgreatest

/-- An operation that fails the store leaves everything else alone. -/
theorem effect_of_fail {op : Operation} {w : Wipeout} (hcreated : op.created? = none)
    (hdrain : op ≠ .drain) (h : t = s.fail w)
    (hfailure : t.failure = s.failure.or (op.failure? s)) : Effect op s t := by
  have hfailed : t.failure ≠ none := by
    rw [h]
    exact failure_fail_ne_none s w
  constructor
  · exact hfailure
  · rw [h, domains_fail, hcreated]
    rfl
  · intro x _
    rw [if_neg hfailed, h, view_fail]
  · intro d hd
    rw [hcreated] at hd
    contradiction
  · intro _ x
    rw [h, changes_fail, view_fail]
    simp
  · intro heq
    exact absurd heq hdrain
  · intro _ hnone
    exact absurd hnone hfailed

theorem effect_restrict {r : Restriction} {reply : Except Wipeout Bool} (hx : s.Has x)
    (h : (r.update x).apply s = .ok (reply, t)) : Effect (.restrict x r) s t := by
  have hfailure := failure_restrict hx h
  rw [Restriction.apply_update] at h
  have hnarrowing := Narrowing.refl.narrow h
  rcases narrow_cases h with ⟨w, -, hfail, -⟩ | ⟨hfine, -, -, -, hcut⟩
  · exact effect_of_fail rfl (by simp) hfail hfailure
  · constructor
    · exact hfailure
    · exact hnarrowing.size_eq
    · intro y _
      rw [hcut, failure_cut, if_pos hfine, view_cut hx]
      dsimp only [Operation.range?]
      by_cases hyx : x = y
      · rw [if_pos hyx, ← hyx, View.cut_self]
        rfl
      · rw [if_neg hyx, View.cut_of_ne _ (Ne.symm hyx)]
        rfl
    · intro d hd
      contradiction
    · intro _ y
      rw [hcut, mem_changes_cut hx]
      constructor
      · intro hy
        rcases hy with hmem | hne
        · exact Or.inl hmem
        · refine Or.inr ⟨?_, hne⟩
          by_contra hnot
          have hyx : y ≠ x := by
            intro heq
            exact hnot (heq ▸ hx)
          rw [view_cut hx, View.cut_of_ne _ hyx] at hne
          exact hne rfl
      · intro hy
        rcases hy with hmem | ⟨-, hne⟩
        · exact Or.inl hmem
        · exact Or.inr hne
    · intro hdrain
      contradiction
    · intro hs hnone
      exact hnarrowing.consistent hs hnone

theorem effect_wipeOut {w : Wipeout} (hx : s.Has x) (h : s.wipeOut x = .ok (w, t)) :
    Effect (.wipeOut x) s t := by
  rw [wipeOut_of_has hx] at h
  have hfail := (Prod.mk.inj (Except.ok.inj h)).2.symm
  apply effect_of_fail rfl (by simp) hfail
  rw [hfail, failure_fail]
  rfl

theorem effect_drain (s : Store) : Effect .drain s s.drain.2 where
  failure := by
    change s.failure = s.failure.or none
    rw [Option.or_none]
  size := rfl
  view x _ := by
    split
    · rfl
    · rfl
  created d hd := by contradiction
  mem_changes h := absurd rfl h
  changes _ := rfl
  consistent hs _ := hs.drained

theorem exists_perform {op : Operation} (hop : op.AddressedTo s) :
    ∃ t, op.perform s = .ok t := by
  cases op with
  | newVar lb ub => exact ⟨_, rfl⟩
  | restrict x r =>
      obtain ⟨⟨reply, t⟩, hnarrow⟩ := exists_narrow (fun _ => hop) r.range.lb r.range.ub
      refine ⟨t, ?_⟩
      dsimp only [Operation.perform]
      rw [Restriction.apply_update, hnarrow]
      rfl
  | wipeOut x =>
      dsimp only [Operation.perform]
      rw [wipeOut_of_has hop]
      exact ⟨_, rfl⟩
  | drain => exact ⟨_, rfl⟩

theorem effect_of_perform {op : Operation} (hop : op.AddressedTo s) (h : op.perform s = .ok t) :
    Effect op s t := by
  cases op with
  | newVar lb ub =>
      rw [← Except.ok.inj h]
      exact effect_newVar s lb ub
  | restrict x r =>
      obtain ⟨⟨reply, u⟩, happly, hu⟩ := Fault.map_eq_ok_iff.mp h
      rw [← hu]
      exact effect_restrict hop happly
  | wipeOut x =>
      obtain ⟨⟨w, u⟩, hwipe, hu⟩ := Fault.map_eq_ok_iff.mp h
      rw [← hu]
      exact effect_wipeOut hop hwipe
  | drain =>
      rw [← Except.ok.inj h]
      exact effect_drain s

end Performing

namespace Effect

variable {op : Operation} {s t : Store} {x : Var}

theorem has (h : Effect op s t) (hx : s.Has x) : t.Has x := by
  have hsize := h.size
  unfold Has at *
  omega

/-- A variable that is new was created by the operation, and has the next index. -/
theorem created_of_not_has (h : Effect op s t) (hx : t.Has x) (hnew : ¬ s.Has x) :
    x.index = s.domains.size ∧ t.domains.size = s.domains.size + 1 ∧ ∃ d, op.created? = some d := by
  have hsize := h.size
  unfold Has at *
  cases hcreated : op.created? with
  | none =>
      rw [hcreated, Option.toList_none, List.length_nil] at hsize
      omega
  | some d =>
      rw [hcreated, Option.toList_some, List.length_singleton] at hsize
      exact ⟨by omega, hsize, d, rfl⟩

theorem failure_eq_none (h : Effect op s t) (hfine : t.failure = none) : s.failure = none := by
  have hfailure := h.failure
  rw [hfine] at hfailure
  exact (Option.or_eq_none_iff.mp hfailure.symm).1

theorem view_le (h : Effect op s t) (hx : s.Has x) : t.view x ≤ s.view x := by
  rw [h.view x hx]
  split
  · cases op.range? x with
    | none => exact le_rfl
    | some r => exact Interval.inter_le_left _ _
  · exact le_rfl

end Effect

/-- The stores that operations lead to, with all operations so far and what each of them left, the
last one first.  Variables are created before they are used. -/
inductive History : List (Operation × Store) → Store → Prop
  | start : History [] empty
  | perform {log : List (Operation × Store)} {s t : Store} {op : Operation} (hs : History log s)
      (hop : op.AddressedTo s) (h : op.perform s = .ok t) : History ((op, t) :: log) t

/-! ## What a history says -/

/-- The store that the last operation left. -/
def now : List (Operation × Store) → Store
  | [] => empty
  | (_, t) :: _ => t

/-- The domains that variables were created with, in the order of the variables. -/
def created : List (Operation × Store) → List Interval
  | [] => []
  | (op, _) :: earlier => created earlier ++ op.created?.toList

/-- The ranges that were applied to a variable. -/
def ranges (x : Var) (log : List (Operation × Store)) : List Interval :=
  log.filterMap fun entry => entry.1.range? x

theorem ranges_cons_none {x : Var} {op : Operation} (t : Store) (log : List (Operation × Store))
    (h : op.range? x = none) : ranges x ((op, t) :: log) = ranges x log :=
  List.filterMap_cons_none h

theorem ranges_cons_some {x : Var} {op : Operation} {r : Interval} (t : Store)
    (log : List (Operation × Store)) (h : op.range? x = some r) :
    ranges x ((op, t) :: log) = r :: ranges x log :=
  List.filterMap_cons_some h

/-- The store as it was after the last drain, or after the creation of the variable if that is
later. -/
def mark (x : Var) : List (Operation × Store) → Store
  | [] => empty
  | (op, t) :: earlier =>
    if op = .drain ∨ op.created?.isSome ∧ t.domains.size = x.index + 1 then t else mark x earlier

/-- The failures that have occurred, the first one first. -/
def failures : List (Operation × Store) → List Wipeout
  | [] => []
  | (op, _) :: earlier => failures earlier ++ (op.failure? (now earlier)).toList

namespace History

variable {log : List (Operation × Store)} {s : Store} {x : Var}

theorem now_eq (h : History log s) : now log = s := by
  cases h with
  | start => rfl
  | perform => rfl

theorem length_created (h : History log s) : (created log).length = s.domains.size := by
  induction h with
  | start => rfl
  | perform hs hop hperform ih =>
      rw [created, List.length_append, ih, (effect_of_perform hop hperform).size]

theorem has_of_mem_changes (h : History log s) (hx : x ∈ s.changes) : s.Has x := by
  induction h with
  | start => exact absurd hx (Array.not_mem_empty x)
  | @perform log s t op hs hop hperform ih =>
      have heffect := effect_of_perform hop hperform
      by_cases hdrain : op = .drain
      · rw [heffect.changes hdrain] at hx
        exact absurd hx (Array.not_mem_empty x)
      · rcases (heffect.mem_changes hdrain x).mp hx with hold | ⟨hhas, -⟩
        · exact heffect.has (ih hold)
        · exact heffect.has hhas

theorem ranges_eq_nil (h : History log s) (hx : ¬ s.Has x) : ranges x log = [] := by
  induction h with
  | start => rfl
  | @perform log s t op hs hop hperform ih =>
      have hold : ¬ s.Has x := fun hhas => hx ((effect_of_perform hop hperform).has hhas)
      have hnone : op.range? x = none := by
        cases op with
        | restrict y r =>
            have hne : y ≠ x := by
              intro heq
              rw [← heq] at hold
              exact hold hop
            exact if_neg hne
        | newVar => rfl
        | wipeOut => rfl
        | drain => rfl
      rw [ranges_cons_none t log hnone]
      exact ih hold

theorem consistent (h : History log s) (hfine : s.failure = none) : s.Consistent := by
  induction h with
  | start => exact Model.sound_empty.consistent
  | perform hs hop hperform ih =>
      have heffect := effect_of_perform hop hperform
      exact heffect.consistent (ih (heffect.failure_eq_none hfine)) hfine

/-- As long as nothing has failed, a domain is what its ranges leave of what it was created with. -/
theorem view_eq_foldl (h : History log s) (hfine : s.failure = none) (hx : s.Has x) :
    ∃ d, (created log)[x.index]? = some d ∧ s.view x = (ranges x log).foldl Interval.inter d := by
  induction h with
  | start => contradiction
  | @perform log s t op hs hop hperform ih =>
      have heffect := effect_of_perform hop hperform
      have hlength := hs.length_created
      by_cases hold : s.Has x
      · obtain ⟨d, hd, hview⟩ := ih (heffect.failure_eq_none hfine) hold
        have hcreated : (created ((op, t) :: log))[x.index]? = some d := by
          rw [created, List.getElem?_append_left (hlength ▸ hold)]
          exact hd
        refine ⟨d, hcreated, ?_⟩
        rw [heffect.view x hold, if_pos hfine]
        cases hrange : op.range? x with
        | none =>
            rw [ranges_cons_none t log hrange]
            exact hview
        | some r =>
            rw [ranges_cons_some t log hrange, Interval.foldl_inter_cons, Option.elim_some, hview]
      · obtain ⟨hindex, -, d, hd⟩ := heffect.created_of_not_has hx hold
        have hcreated : (created ((op, t) :: log))[x.index]? = some d := by
          rw [created, hd, hindex, ← hlength]
          exact List.getElem?_concat_length
        have hrange : op.range? x = none := by
          cases op with
          | newVar => rfl
          | restrict => contradiction
          | wipeOut => contradiction
          | drain => contradiction
        refine ⟨d, hcreated, ?_⟩
        have hview := heffect.created d hd hfine
        rw [← hindex] at hview
        rw [ranges_cons_none t log hrange, hs.ranges_eq_nil hold]
        exact hview

/-- A domain that is recorded as changed is not what it was, and will never be again. -/
theorem mem_changes_iff (h : History log s) (hx : s.Has x) :
    s.view x ≤ (mark x log).view x ∧ (x ∈ s.changes ↔ s.view x ≠ (mark x log).view x) := by
  induction h with
  | start => contradiction
  | @perform log s t op hs hop hperform ih =>
      have heffect := effect_of_perform hop hperform
      unfold mark
      by_cases hdrain : op = .drain
      · rw [if_pos (Or.inl hdrain), heffect.changes hdrain]
        simp
      · have hmem := heffect.mem_changes hdrain x
        by_cases hold : s.Has x
        · obtain ⟨hle, hiff⟩ := ih hold
          have hless := heffect.view_le hold
          have hkept : ¬ (op = .drain ∨ op.created?.isSome ∧ t.domains.size = x.index + 1) := by
            rintro (heq | ⟨hsome, hsize⟩)
            · exact hdrain heq
            · have hgrown := heffect.size
              obtain ⟨d, hd⟩ := Option.isSome_iff_exists.mp hsome
              rw [hd, Option.toList_some, List.length_singleton] at hgrown
              unfold Has at hold
              omega
          rw [if_neg hkept, hmem, hiff]
          refine ⟨hless.trans hle, ?_⟩
          constructor
          · intro hchanged heq
            have hsame : s.view x = (mark x log).view x :=
              le_antisymm hle (heq ▸ hless)
            rcases hchanged with hne | ⟨-, hne⟩
            · exact hne hsame
            · exact hne (heq.trans hsame.symm)
          · intro hne
            by_cases hsame : t.view x = s.view x
            · rw [hsame] at hne
              exact Or.inl hne
            · exact Or.inr ⟨hold, hsame⟩
        · obtain ⟨hindex, hsize, d, hd⟩ := heffect.created_of_not_has hx hold
          have hnew : op = .drain ∨ op.created?.isSome ∧ t.domains.size = x.index + 1 := by
            right
            rw [hd, hsize, hindex]
            exact ⟨rfl, rfl⟩
          have hnone : x ∉ s.changes := fun hx => hold (hs.has_of_mem_changes hx)
          rw [if_pos hnew, hmem]
          simp [hnone, hold]

theorem failure_eq_head? (h : History log s) : s.failure = (failures log).head? := by
  induction h with
  | start => rfl
  | @perform log s t op hs hop hperform ih =>
      rw [failures, List.head?_append, ← ih, hs.now_eq, (effect_of_perform hop hperform).failure]
      cases op.failure? s <;> rfl

/-- Once a store has failed, nothing happens to the variables that exist. -/
theorem later_of_failed {later : List (Operation × Store)} {t : Store} {w : Wipeout}
    (h : History log s) (hfailed : s.failure = some w) (ht : History (later ++ log) t) :
    t.failure = some w ∧ ∀ x, s.Has x → t.Has x ∧ t.view x = s.view x := by
  induction later generalizing t with
  | nil =>
      have hsame : t = s := ht.now_eq.symm.trans h.now_eq
      rw [hsame]
      exact ⟨hfailed, fun x hx => ⟨hx, rfl⟩⟩
  | cons entry later ih =>
      cases ht with
      | @perform _ u _ op hu hop hperform =>
          obtain ⟨hfailure, hviews⟩ := ih hu
          have heffect := effect_of_perform hop hperform
          have hstill : t.failure = some w := by
            rw [heffect.failure, hfailure, Option.some_or]
          refine ⟨hstill, ?_⟩
          intro x hx
          obtain ⟨hhas, hview⟩ := hviews x hx
          refine ⟨heffect.has hhas, ?_⟩
          rw [heffect.view x hhas, if_neg (by rw [hstill]; simp)]
          exact hview

/-- What a store holds is what its history says, after any operations on variables that exist.  As long
as nothing has failed, each domain has a value, lies within the range of values, and is what it was
created with, cut in any order by all ranges that were applied.  A variable is recorded as changed if
its domain is not what it was when the changes were drained, or when the variable was created.  The
failure is the first one that occurred; every restriction is refused with it, and whatever is done
later, it stays, and so do the domains. -/
theorem determines_store (h : History log s) :
    (∀ op : Operation, op.AddressedTo s → ∃ t, op.perform s = .ok t) ∧
    (s.failure = none → ∀ x, s.Has x →
      (s.view x).lb ≤ (s.view x).ub ∧ s.view x ≤ ⟨Word.minValue, Word.maxValue⟩ ∧
        ∃ d, (created log)[x.index]? = some d ∧
          ∀ rs : List Interval, rs.Perm (ranges x log) → s.view x = rs.foldl Interval.inter d) ∧
    (∀ x, x ∈ s.changes ↔ s.Has x ∧ s.view x ≠ (mark x log).view x) ∧
    s.failure = (failures log).head? ∧
    ∀ w, s.failure = some w →
      (∀ x (r : Restriction), (r.update x).apply s = .ok (.error w, s)) ∧
        ∀ later t, History (later ++ log) t →
          t.failure = some w ∧ ∀ x, s.Has x → t.Has x ∧ t.view x = s.view x := by
  refine ⟨fun op hop => exists_perform hop, ?_, ?_, h.failure_eq_head?, ?_⟩
  · intro hfine x hx
    have hconsistent := h.consistent hfine
    obtain ⟨d, hd, hview⟩ := h.view_eq_foldl hfine hx
    refine ⟨hconsistent.view x, ⟨hconsistent.least x, hconsistent.greatest x⟩, d, hd, ?_⟩
    intro rs hperm
    rw [hview, hperm.foldl_eq]
  · intro x
    constructor
    · intro hmem
      have hx := h.has_of_mem_changes hmem
      exact ⟨hx, (h.mem_changes_iff hx).2.mp hmem⟩
    · intro hx
      exact (h.mem_changes_iff hx.1).2.mpr hx.2
  · intro w hfailed
    constructor
    · intro x r
      rw [Restriction.apply_update]
      exact narrow_of_failed hfailed x _ _
    · intro later t ht
      exact h.later_of_failed hfailed ht

/-- A variable that is cut once before a drain, and once after it. -/
def twiceCut : List (Operation × Store) :=
  [(.restrict ⟨0⟩ (.setLower 3), ⟨#[⟨3, 7⟩], #[⟨0⟩], none⟩),
    (.drain, ⟨#[⟨0, 7⟩], #[], none⟩),
    (.restrict ⟨0⟩ (.setUpper 7), ⟨#[⟨0, 7⟩], #[⟨0⟩], none⟩),
    (.newVar 0 10, ⟨#[⟨0, 10⟩], #[], none⟩)]

theorem history_twiceCut : History twiceCut ⟨#[⟨3, 7⟩], #[⟨0⟩], none⟩ := by
  have hlt : 0 < 1 := Nat.one_pos
  exact .perform (.perform (.perform (.perform .start trivial rfl) hlt rfl) trivial rfl) hlt rfl

/-- Both cuts count for the domain, but only the second one for the changes. -/
theorem determines_store_twiceCut :
    (∃ d, (created twiceCut)[0]? = some d ∧ ∀ rs : List Interval,
      rs.Perm [⟨3, Word.greatest⟩, ⟨Word.least, 7⟩] → ⟨3, 7⟩ = rs.foldl Interval.inter d) ∧
    (mark ⟨0⟩ twiceCut).view ⟨0⟩ = ⟨0, 7⟩ ∧ (⟨3, 7⟩ : Interval) ≠ (mark ⟨0⟩ twiceCut).view ⟨0⟩ := by
  obtain ⟨-, hdomains, hchanges, -⟩ := determines_store history_twiceCut
  obtain ⟨-, -, d, hd, hview⟩ := hdomains rfl ⟨0⟩ (by decide)
  exact ⟨⟨d, hd, hview⟩, rfl, ((hchanges ⟨0⟩).mp (by simp)).2⟩

end History

end Store

end FiniteDomain
