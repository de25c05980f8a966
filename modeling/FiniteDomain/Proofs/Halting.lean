import FiniteDomain.Proofs.NarrowingUpdates

/-!
# Updates that halt

The only loop in a propagator of the library is that of non-overlap, which sweeps over its pairs until
nothing changes.  A sweep says that something has changed only if it has taken a value from the store, so
the number of values bounds the number of sweeps, on any store whatsoever: it may have failed before,
its domains may be empty, and a variable or two may be missing, which ends the run with a fault of
another kind.
-/

namespace FiniteDomain

/-- The computation does not run out of fuel.  It may have another fault. -/
def Halts {α : Type} (x : Except Fault α) : Prop :=
  x ≠ .error .outOfFuel

section Computations

variable {α β : Type}

theorem halts_ok (a : α) : Halts (.ok a : Except Fault α) := by
  intro h
  contradiction

theorem halts_error {f : Fault} (hf : f ≠ .outOfFuel) : Halts (.error f : Except Fault α) :=
  fun h => hf (Except.error.inj h)

theorem Halts.fault_ne {x : Except Fault α} {f : Fault} (hx : Halts x) (h : x = .error f) :
    f ≠ .outOfFuel := by
  rintro rfl
  exact hx h

theorem Halts.bind {x : Except Fault α} {k : α → Except Fault β} (hx : Halts x)
    (hk : ∀ a, Halts (k a)) : Halts (x >>= k) := by
  cases x with
  | error f => exact halts_error (hx.fault_ne rfl)
  | ok a => exact hk a

theorem Halts.map {x : Except Fault α} (hx : Halts x) (f : α → β) : Halts (x.map f) := by
  cases x with
  | error fault => exact halts_error (hx.fault_ne rfl)
  | ok a => exact halts_ok (f a)

theorem halts_fetch (t : Table α) (k : Nat) : Halts (t.fetch k) := by
  unfold Table.fetch
  split
  · exact halts_ok _
  · exact halts_error Fault.noConfusion

theorem halts_fit (n : Int) : Halts (Word.fit n) := by
  unfold Word.fit
  split
  · exact halts_ok _
  · exact halts_error Fault.noConfusion

theorem halts_allM {f : α → Except Fault Bool} (hf : ∀ a, Halts (f a)) (as : List α) :
    Halts (as.allM f) := by
  induction as with
  | nil => exact halts_ok true
  | cons a rest ih =>
      refine (hf a).bind fun answer => ?_
      cases answer with
      | true => exact ih
      | false => exact halts_ok false

theorem halts_anyM {f : α → Except Fault Bool} (hf : ∀ a, Halts (f a)) (as : List α) :
    Halts (as.anyM f) := by
  induction as with
  | nil => exact halts_ok false
  | cons a rest ih =>
      refine (hf a).bind fun answer => ?_
      cases answer with
      | true => exact halts_ok true
      | false => exact ih

end Computations

namespace Store

variable (s : Store) (x : Var)

theorem halts_domain : Halts (s.domain x) :=
  halts_fetch _ _

theorem halts_lower : Halts (s.lower x) :=
  (s.halts_domain x).bind fun _ => halts_ok _

theorem halts_upper : Halts (s.upper x) :=
  (s.halts_domain x).bind fun _ => halts_ok _

theorem halts_value? : Halts (s.value? x) :=
  (s.halts_domain x).bind fun _ => halts_ok _

theorem halts_narrow (lb ub : Int) : Halts (s.narrow x lb ub) := by
  unfold narrow
  split
  · exact halts_ok _
  · split
    · rename_i f hfetch
      exact halts_error ((halts_fetch _ _).fault_ne hfetch)
    · dsimp only
      split
      · exact halts_ok _
      · split
        · exact halts_ok _
        · exact halts_ok _

theorem halts_wipeOut : Halts (s.wipeOut x) :=
  (s.halts_domain x).bind fun _ => halts_ok _

end Store

namespace Store.Narrowing

variable {s t : Store}

/-- Changes are recorded only when a value is taken.  A failure may be recorded, but that is no change. -/
theorem weight_lt_or_changes_eq (h : s.Narrowing t) :
    t.weight < s.weight ∨ t.weight = s.weight ∧ t.changes = s.changes := by
  rcases h.weight with hsame | hlt
  · right
    constructor
    · unfold Store.weight
      rw [hsame]
    · rcases h.eq_or_eq_fail (congrArg Table.view hsame) with rfl | ⟨w, rfl⟩
      · rfl
      · exact changes_fail s w
  · exact Or.inl hlt

theorem weight_le (h : s.Narrowing t) : t.weight ≤ s.weight := by
  rcases h.weight_lt_or_changes_eq with hlt | ⟨hsame, -⟩
  · exact hlt.le
  · exact hsame.le

end Store.Narrowing

namespace Update

variable {α β : Type}

/-- The update halts, whatever store it is applied to. -/
def Halts (u : Update α) : Prop :=
  ∀ s, FiniteDomain.Halts (u.apply s)

theorem halts_pure (a : α) : (pure a : Update α).Halts :=
  fun _ => halts_ok _

theorem Halts.bind {u : Update α} {k : α → Update β} (hu : u.Halts) (hk : ∀ a, (k a).Halts) :
    (u >>= k).Halts := by
  intro s
  rw [apply_bind]
  split
  · exact hk _ _
  · exact halts_ok _
  · rename_i f hfirst
    exact halts_error ((hu s).fault_ne hfirst)

theorem halts_read {f : Store → Except Fault α} (hf : ∀ s, FiniteDomain.Halts (f s)) :
    (read f).Halts := by
  intro s
  rw [apply_read]
  exact (hf s).map _

theorem halts_narrow (x : Var) (lb ub : Int) : (narrow x lb ub).Halts :=
  fun s => s.halts_narrow x lb ub

theorem halts_wipeOut (x : Var) : (wipeOut x : Update α).Halts := by
  intro s
  unfold wipeOut
  rw [apply_ofFunction]
  split
  · exact halts_ok _
  · rename_i f hwipe
    exact halts_error ((s.halts_wipeOut x).fault_ne hwipe)

theorem Halts.discard {u : Update α} (hu : u.Halts) : (discard u : Update Unit).Halts := by
  have hunit := hu.bind fun _ => halts_pure ()
  rw [← discard_bind, bind_pure] at hunit
  exact hunit

/-- The update takes a value from the store whenever it says so. -/
def TakesIfTrue (u : Update Bool) : Prop :=
  ∀ s t, u.apply s = .ok (.ok true, t) → t.weight < s.weight

theorem takesIfTrue_pure_false : (pure false : Update Bool).TakesIfTrue := by
  intro s t h
  have hfalse := Except.ok.inj (Prod.mk.inj (Except.ok.inj h)).1
  contradiction

theorem takesIfTrue_narrow (x : Var) (lb ub : Int) : (narrow x lb ub).TakesIfTrue := by
  intro s t h
  rcases Store.narrow_cases h with ⟨w, hreply, -⟩ | ⟨-, hx, hne, hreply, rfl⟩
  · contradiction
  · have hchanged := of_decide_eq_true (Except.ok.inj hreply).symm
    exact Store.weight_cut_lt hx (mt Interval.inter_eq_left_iff.mpr hchanged) hne

theorem takesIfTrue_wipeOut (x : Var) : (wipeOut x : Update Bool).TakesIfTrue := by
  intro s t h
  unfold wipeOut at h
  rw [apply_ofFunction] at h
  split at h
  · have hreply := (Prod.mk.inj (Except.ok.inj h)).1
    contradiction
  · contradiction

theorem TakesIfTrue.afterRead {f : Store → Except Fault α} {k : α → Update Bool}
    (hk : ∀ a, (k a).TakesIfTrue) : (read f >>= k).TakesIfTrue := by
  intro s t h
  rw [apply_bind, apply_read] at h
  cases hf : f s with
  | error fault =>
      rw [hf] at h
      contradiction
  | ok a =>
      rw [hf] at h
      exact hk a s t h

/-- Of two updates in turn, one has taken a value if one of them says so. -/
theorem TakesIfTrue.or {u v : Update Bool} (hu : u.TakesIfTrue) (hv : v.TakesIfTrue)
    (hnarrows : u.Narrows) (hnarrows' : v.Narrows) :
    (do let first ← u; let second ← v; return first || second).TakesIfTrue := by
  intro s t h
  rw [apply_bind] at h
  split at h
  · rename_i first r hfirst
    -- neither update gives back what the other has taken
    have hle := (hnarrows s r _ hfirst).weight_le
    rw [apply_bind] at h
    split at h
    · rename_i second r' hsecond
      have hle' := (hnarrows' r r' _ hsecond).weight_le
      obtain ⟨hreply, rfl⟩ := Prod.mk.inj (Except.ok.inj h)
      rcases Bool.or_eq_true_iff.mp (Except.ok.inj hreply) with rfl | rfl
      · exact hle'.trans_lt (hu s r hfirst)
      · exact (hv r r' hsecond).trans_le hle
    · have hreply := (Prod.mk.inj (Except.ok.inj h)).1
      contradiction
    · contradiction
  · have hreply := (Prod.mk.inj (Except.ok.inj h)).1
    contradiction
  · contradiction

theorem TakesIfTrue.orAfterRead {u : Update Bool} {f : Store → Except Fault α}
    {k : α → Update Bool} (hu : u.TakesIfTrue) (hnarrows : u.Narrows)
    (hk : ∀ a, (k a).TakesIfTrue) (hnarrows' : ∀ a, (k a).Narrows) :
    (do let first ← u; let a ← read f; let second ← k a; return first || second).TakesIfTrue := by
  have hboth := hu.or (.afterRead (f := f) hk) hnarrows ((narrows_read f).bind hnarrows')
  simp only [bind_assoc] at hboth
  exact hboth

end Update

open Update

theorem Precedence.halts_propagate (c : Precedence) : c.propagate.Halts := by
  unfold propagate
  refine (halts_read fun s => (s.halts_lower _).bind fun _ => halts_fit _).bind fun earliest => ?_
  refine (halts_narrow _ _ _).discard.bind fun _ => ?_
  refine (halts_read fun s => (s.halts_upper _).bind fun _ => halts_fit _).bind fun latest => ?_
  refine (halts_narrow _ _ _).discard.bind fun _ => ?_
  have hentailed : ∀ s, FiniteDomain.Halts (c.isEntailed s) := fun s =>
    (s.halts_upper _).bind fun _ => (halts_fit _).bind fun _ =>
      (s.halts_lower _).bind fun _ => halts_ok _
  refine (halts_read hentailed).bind fun entailed => ?_
  cases entailed with
  | true => exact halts_pure _
  | false => exact halts_pure _

namespace Disequality

theorem halts_trimLower (x : Var) (v : Int) : (trimLower x v).Halts := by
  unfold trimLower
  refine (halts_read fun s => s.halts_lower _).bind fun bound => ?_
  split
  · refine (halts_read fun _ => halts_fit _).bind fun raised => ?_
    exact (halts_narrow _ _ _).discard
  · exact halts_pure _

theorem halts_trimUpper (x : Var) (v : Int) : (trimUpper x v).Halts := by
  unfold trimUpper
  refine (halts_read fun s => s.halts_upper _).bind fun bound => ?_
  split
  · refine (halts_read fun _ => halts_fit _).bind fun lowered => ?_
    exact (halts_narrow _ _ _).discard
  · exact halts_pure _

theorem halts_prune (fixed other : Var) : (prune fixed other).Halts := by
  rw [prune_eq]
  refine (halts_read fun s => s.halts_value? _).bind fun value => ?_
  cases value with
  | none => exact halts_pure _
  | some v => exact (halts_trimLower other v).bind fun _ => halts_trimUpper other v

theorem halts_propagate (c : Disequality) : c.propagate.Halts := by
  unfold propagate
  refine (halts_prune _ _).bind fun _ => ?_
  refine (halts_prune _ _).bind fun _ => ?_
  have hentailed : ∀ s, FiniteDomain.Halts (c.isEntailed s) := fun s =>
    (s.halts_domain _).bind fun _ => (s.halts_domain _).bind fun _ => halts_ok _
  refine (halts_read hentailed).bind fun entailed => ?_
  cases entailed with
  | true => exact halts_pure _
  | false => exact halts_pure _

end Disequality

namespace Side

variable (i j : Rectangle)

theorem halts_isPossible (side : Side) (s : Store) :
    FiniteDomain.Halts (side.isPossible i j s) := by
  unfold isPossible
  exact (s.halts_lower _).bind fun _ => (halts_fit _).bind fun _ =>
    (s.halts_upper _).bind fun _ => halts_ok _

theorem halts_isEntailed (side : Side) (s : Store) :
    FiniteDomain.Halts (side.isEntailed i j s) := by
  unfold isEntailed
  exact (s.halts_upper _).bind fun _ => (halts_fit _).bind fun _ =>
    (s.halts_lower _).bind fun _ => halts_ok _

theorem halts_firstPossible (s : Store) (n : Nat) (sides : List Side) :
    FiniteDomain.Halts (firstPossible i j s n sides) := by
  induction sides generalizing n with
  | nil => cases n <;> exact halts_ok _
  | cons side rest ih =>
      cases n with
      | zero => exact halts_ok _
      | succ n =>
          unfold firstPossible
          refine (side.halts_isPossible i j s).bind fun possible => ?_
          split
          · exact (ih n).bind fun _ => halts_ok _
          · exact ih (n + 1)

theorem halts_enforce (side : Side) : (side.enforce i j).Halts := by
  unfold enforce
  refine (halts_read fun s => (s.halts_lower _).bind fun _ => halts_fit _).bind fun earliest => ?_
  refine (halts_narrow _ _ _).bind fun raised => ?_
  refine (halts_read fun s => (s.halts_upper _).bind fun _ => halts_fit _).bind fun latest => ?_
  exact (halts_narrow _ _ _).bind fun lowered => halts_pure _

theorem takesIfTrue_enforce (side : Side) : (side.enforce i j).TakesIfTrue := by
  unfold enforce
  refine .afterRead fun earliest => ?_
  exact (takesIfTrue_narrow _ _ _).orAfterRead (narrows_narrow _ _ _)
    (fun latest => takesIfTrue_narrow _ _ _) fun latest => narrows_narrow _ _ _

end Side

namespace NonOverlap

theorem halts_prunePair (i j : Rectangle) : (prunePair i j).Halts := by
  unfold prunePair
  refine (halts_read fun s => Side.halts_firstPossible i j s _ _).bind fun possible => ?_
  split
  · exact halts_wipeOut _
  · exact Side.halts_enforce i j _
  · exact halts_pure _

theorem takesIfTrue_prunePair (i j : Rectangle) : (prunePair i j).TakesIfTrue := by
  unfold prunePair
  refine .afterRead fun possible => ?_
  split
  · exact takesIfTrue_wipeOut _
  · exact Side.takesIfTrue_enforce i j _
  · exact takesIfTrue_pure_false

theorem halts_sweep (pairs : List (Rectangle × Rectangle)) : (sweep pairs).Halts := by
  induction pairs with
  | nil => exact halts_pure _
  | cons pair rest ih =>
      unfold sweep
      exact (halts_prunePair _ _).bind fun _ => ih.bind fun _ => halts_pure _

theorem takesIfTrue_sweep (pairs : List (Rectangle × Rectangle)) : (sweep pairs).TakesIfTrue := by
  induction pairs with
  | nil => exact takesIfTrue_pure_false
  | cons pair rest ih =>
      unfold sweep
      exact (takesIfTrue_prunePair _ _).or ih (built_prunePair _ _).narrows
        (built_sweep rest).narrows

/-- There are no more sweeps than values, except for the one that changes nothing. -/
theorem halts_settle (pairs : List (Rectangle × Rectangle)) {fuel : Nat} {s : Store}
    (hfuel : s.weight < fuel) : FiniteDomain.Halts ((settle pairs fuel).apply s) := by
  induction fuel generalizing s with
  | zero => contradiction
  | succ fuel ih =>
      unfold settle
      rw [apply_bind]
      split
      · rename_i changed t hsweep
        cases changed with
        | true =>
            have hlt := takesIfTrue_sweep pairs s t hsweep
            exact ih (by omega)
        | false => exact halts_ok _
      · exact halts_ok _
      · rename_i f hsweep
        exact halts_error ((halts_sweep pairs s).fault_ne hsweep)

theorem halts_isSeparated (c : NonOverlap) (s : Store) : FiniteDomain.Halts (c.isSeparated s) :=
  halts_allM (fun pair => halts_anyM (fun side => side.halts_isEntailed pair.1 pair.2 s) _) _

theorem halts_propagate (c : NonOverlap) : c.propagate.Halts := by
  have hverdict : (do
      if ← Update.read c.isSeparated then
        return Verdict.entailed
      else
        return .stable : Update Verdict).Halts := by
    refine (halts_read c.halts_isSeparated).bind fun separated => ?_
    split
    · exact halts_pure _
    · exact halts_pure _
  intro s
  have hsettle := halts_settle c.pairs (Nat.lt_succ_self s.weight)
  change FiniteDomain.Halts ((settle c.pairs (s.weight + 1) >>= fun _ => _).apply s)
  rw [apply_bind]
  split
  · exact hverdict _
  · exact halts_ok _
  · rename_i f hfault
    exact halts_error (hsettle.fault_ne hfault)

end NonOverlap

/-- The propagators of the library halt on every store. -/
theorem Constraint.halts_propagate (p : Constraint) : (Propagator.propagate p).Halts := by
  cases p with
  | precedence c => exact c.halts_propagate
  | nonOverlap c => exact c.halts_propagate
  | disequality c => exact c.halts_propagate

end FiniteDomain
