import FiniteDomain.Proofs.Narrowing

/-!
# Pruning

The contract of the updates that propagators are made of.  It is a contract of total correctness:
the update does not fault.  What it says of the effect is that only the given variables are narrowed,
that the reply tells whether the store has failed, and that no closed view is lost: one that the
store encloses before is enclosed afterwards, so that there cannot be a failure.

Closed views are those of which a propagator has nothing to remove.  The contract is stated for any
set of them, and there is one rule for each way to build an update.
-/

namespace FiniteDomain

namespace Update

theorem discard_bind {α β : Type} (u : Update α) (k : Unit → Update β) :
    (discard u : Update Unit) >>= k = u >>= fun _ => k () := by
  simp [discard, Functor.discard, map_const]

/-- The reply is a wipeout when, and only when, the store has failed with it. -/
def Agrees {α : Type} (reply : Except Wipeout α) (t : Store) : Prop :=
  match reply with
  | .ok _ => t.failure = none
  | .error w => t.failure = some w

/-- What an update has done that started on `s` and ended with `reply` on `t`. -/
structure Effect {α : Type} (xs : List Var) (closed : View → Prop) (s : Store)
    (reply : Except Wipeout α) (t : Store) : Prop where
  narrowing : s.Narrowing t
  frame : ∀ x, x ∉ xs → t.view x = s.view x
  agrees : Agrees reply t
  keeps : ∀ V, V.Consistent → closed V → s.Encloses V → (∃ a, reply = .ok a) ∧ t.Encloses V

/-- The update ends on `s` with such an effect, and an answer that it gives fits `post`. -/
def Prunes {α : Type} (u : Update α) (xs : List Var) (closed : View → Prop) (s : Store)
    (post : α → Store → Prop) : Prop :=
  ∃ reply t, u.apply s = .ok (reply, t) ∧ Effect xs closed s reply t ∧
    ∀ a, reply = .ok a → post a t

namespace Effect

variable {α β : Type} {xs : List Var} {closed : View → Prop} {s t u : Store}

theorem refl (hs : s.failure = none) (a : α) : Effect xs closed s (.ok a) s where
  narrowing := .refl
  frame _ _ := rfl
  agrees := hs
  keeps _ _ _ hV := ⟨⟨a, rfl⟩, hV⟩

theorem trans {a : α} {reply : Except Wipeout β} (hst : Effect xs closed s (.ok a) t)
    (htu : Effect xs closed t reply u) : Effect xs closed s reply u where
  narrowing := hst.narrowing.trans htu.narrowing
  frame x hx := (htu.frame x hx).trans (hst.frame x hx)
  agrees := htu.agrees
  keeps V hV hclosed hs := htu.keeps V hV hclosed (hst.keeps V hV hclosed hs).2

theorem of_error {w : Wipeout} (h : Effect (α := α) xs closed s (.error w) t) :
    Effect (α := β) xs closed s (.error w) t where
  narrowing := h.narrowing
  frame := h.frame
  agrees := h.agrees
  keeps V hV hclosed hs := by
    obtain ⟨⟨a, ha⟩, -⟩ := h.keeps V hV hclosed hs
    simp at ha

theorem consistent {a : α} (h : Effect xs closed s (.ok a) t) (hs : s.Consistent) :
    t.Consistent :=
  h.narrowing.consistent hs h.agrees

end Effect

namespace Prunes

variable {α β : Type} {xs : List Var} {closed : View → Prop} {s : Store}
  {post : α → Store → Prop}

protected theorem pure {a : α} (hs : s.failure = none) (hpost : post a s) :
    (pure a : Update α).Prunes xs closed s post := by
  refine ⟨.ok a, s, rfl, .refl hs a, ?_⟩
  intro b hb
  rw [Except.ok.injEq] at hb
  subst hb
  exact hpost

protected theorem bind {u : Update α} {k : α → Update β} {done : β → Store → Prop}
    (hs : s.Consistent) (hu : u.Prunes xs closed s post)
    (hk : ∀ a t, s.Narrowing t → t.Consistent → post a t → (k a).Prunes xs closed t done) :
    (u >>= k).Prunes xs closed s done := by
  rcases hu with ⟨reply, t, happly, heffect, hpost⟩
  cases reply with
  | error w =>
      refine ⟨.error w, t, ?_, heffect.of_error, by simp⟩
      rw [apply_bind, happly]
  | ok a =>
      obtain ⟨reply, v, hthen, heffect', hdone⟩ :=
        hk a t heffect.narrowing (heffect.consistent hs) (hpost a rfl)
      refine ⟨reply, v, ?_, heffect.trans heffect', hdone⟩
      rw [apply_bind, happly]
      exact hthen

/-- What the contract says of a run that has given an answer. -/
theorem of_apply {u : Update α} {a : α} {t : Store} (hu : u.Prunes xs closed s post)
    (happly : u.apply s = .ok (.ok a, t)) : Effect xs closed s (.ok a) t ∧ post a t := by
  obtain ⟨reply, t', happly', heffect, hpost⟩ := hu
  rw [happly] at happly'
  obtain ⟨rfl, rfl⟩ := Prod.mk.inj (Except.ok.inj happly')
  exact ⟨heffect, hpost a rfl⟩

theorem read_bind {f : Store → Except Fault α} {k : α → Update β} {a : α}
    {done : β → Store → Prop} (hf : f s = .ok a) (hk : (k a).Prunes xs closed s done) :
    (read f >>= k).Prunes xs closed s done := by
  rcases hk with ⟨reply, t, happly, heffect, hdone⟩
  refine ⟨reply, t, ?_, heffect, hdone⟩
  rw [apply_bind, apply_read, hf]
  exact happly

protected theorem discard {u : Update α} {done : Unit → Store → Prop}
    (hu : u.Prunes xs closed s fun _ t => done () t) :
    (discard u : Update Unit).Prunes xs closed s done := by
  rcases hu with ⟨reply, t, happly, heffect, hpost⟩
  refine ⟨reply.map fun _ => (), t, ?_, ?_, ?_⟩
  · rw [apply_discard, happly]
    rfl
  · cases reply with
    | error w => exact heffect.of_error
    | ok a =>
        exact ⟨heffect.narrowing, heffect.frame, heffect.agrees, fun V hV hclosed hsV =>
          ⟨⟨(), rfl⟩, (heffect.keeps V hV hclosed hsV).2⟩⟩
  · rintro ⟨⟩ hunit
    cases reply with
    | error w => simp [Except.map] at hunit
    | ok a => exact hpost a rfl

theorem mono {u : Update α} {ys : List Var} {closed' : View → Prop} {done : α → Store → Prop}
    (hu : u.Prunes xs closed s post) (hxs : ∀ x ∈ xs, x ∈ ys)
    (hclosed : ∀ V, closed' V → closed V)
    (hdone : ∀ a t, s.Narrowing t → t.failure = none → post a t → done a t) :
    u.Prunes ys closed' s done := by
  rcases hu with ⟨reply, t, happly, heffect, hpost⟩
  refine ⟨reply, t, happly, ⟨heffect.narrowing, ?_, heffect.agrees, ?_⟩, ?_⟩
  · intro x hx
    exact heffect.frame x fun hmem => hx (hxs x hmem)
  · intro V hV hV'
    exact heffect.keeps V hV (hclosed V hV')
  · rintro a rfl
    exact hdone a t heffect.narrowing heffect.agrees (hpost a rfl)

protected theorem narrow {x : Var} {lb ub : Int} (hs : s.Consistent) (hx : s.Has x) (hmem : x ∈ xs)
    (hkeeps : ∀ V, V.Consistent → closed V → s.Encloses V → V x ≤ ⟨lb, ub⟩) :
    (narrow x lb ub).Prunes xs closed s fun changed t =>
      t = s.cut x ⟨lb, ub⟩ ∧ (changed = false ↔ s.view x ≤ ⟨lb, ub⟩) := by
  have happly := Store.narrow_of_has hs.failure hx lb ub
  have hkept : ∀ reply t, s.narrow x lb ub = .ok (reply, t) → ∀ V, V.Consistent → closed V →
      s.Encloses V → t.failure = none ∧ t.Encloses V := by
    intro reply t hnarrow V hV hclosed hsV
    exact Store.keeps_narrow hnarrow hs.failure hV hsV (hkeeps V hV hclosed hsV)
  dsimp only at happly
  split at happly
  · refine ⟨_, _, happly, ⟨Store.Narrowing.refl.narrow happly, ?_, rfl, ?_⟩, by simp⟩
    · intro y _
      rfl
    · intro V hV hclosed hsV
      have hfine := (hkept _ _ happly V hV hclosed hsV).1
      contradiction
  · refine ⟨_, _, happly, ⟨Store.Narrowing.refl.narrow happly, ?_, ?_, ?_⟩, ?_⟩
    · intro y hy
      rw [Store.view_cut hx]
      apply View.cut_of_ne
      rintro rfl
      exact hy hmem
    · unfold Agrees
      rw [Store.failure_cut]
      exact hs.failure
    · intro V hV hclosed hsV
      exact ⟨⟨_, rfl⟩, (hkept _ _ happly V hV hclosed hsV).2⟩
    · intro changed hchanged
      rw [Except.ok.injEq] at hchanged
      subst hchanged
      refine ⟨rfl, ?_⟩
      simp [Interval.inter_eq_left_iff]

protected theorem wipeOut {x : Var} (hs : s.Consistent) (hx : s.Has x)
    (hnone : ∀ V, V.Consistent → closed V → ¬ s.Encloses V) :
    (wipeOut x : Update α).Prunes xs closed s post := by
  have hwiped : ∃ w, s.wipeOut x = .ok (w, s.fail w) := ⟨_, Store.wipeOut_of_has hx⟩
  obtain ⟨w, hwipe⟩ := hwiped
  refine ⟨.error w, s.fail w, ?_, ⟨Store.Narrowing.refl.wipeOut hwipe, ?_, ?_, ?_⟩, by simp⟩
  · unfold Update.wipeOut
    rw [apply_ofFunction, hwipe]
  · intro y _
    rw [Store.view_fail]
  · unfold Agrees
    rw [Store.fail_of_failure_eq_none hs.failure]
  · intro V hV hclosed hsV
    exact absurd hsV (hnone V hV hclosed)

end Prunes

end Update

end FiniteDomain
