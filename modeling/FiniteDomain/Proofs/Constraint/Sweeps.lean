import FiniteDomain.Proofs.Constraint.NonOverlap

/-!
# The sweeps of a run

A run of non-overlap sweeps over the pairs until a sweep changes nothing.  Its definition bounds the
sweeps by the weight of the store.  Here they are counted without a bound: a sweep that changes a
domain lowers the weight, so the sweeps end by themselves, and the bound never cuts them short.

The last sweep of a run that does not fail has found all pairs closed.  A second run has therefore
nothing to remove, whatever happened to the record of changes in between.
-/

namespace FiniteDomain

namespace NonOverlap

/-- A number of sweeps that start on a store, each one on what the last one left, until one changes
nothing or fails; how the last one ended, and on which store. -/
inductive Sweeps (pairs : List (Rectangle × Rectangle)) :
    Store → Nat → Except Wipeout Unit → Store → Prop
  | unchanged {s t : Store} (h : (sweep pairs).apply s = .ok (.ok false, t)) :
      Sweeps pairs s 1 (.ok ()) t
  | failed {s t : Store} {w : Wipeout} (h : (sweep pairs).apply s = .ok (.error w, t)) :
      Sweeps pairs s 1 (.error w) t
  | changed {s t u : Store} {n : Nat} {reply : Except Wipeout Unit}
      (h : (sweep pairs).apply s = .ok (.ok true, t)) (hrest : Sweeps pairs t n reply u) :
      Sweeps pairs s (n + 1) reply u

section Loop

variable {c : NonOverlap} {s t : Store} {n : Nat} {reply : Except Wipeout Unit}

/-- With enough fuel, the rounds of a run are these sweeps. -/
theorem Sweeps.settle_eq {ps : List (Rectangle × Rectangle)} {fuel : Nat}
    (h : Sweeps ps s n reply t) (hfuel : n ≤ fuel) :
    (settle ps fuel).apply s = .ok (reply, t) := by
  induction h generalizing fuel with
  | unchanged h =>
      obtain ⟨fuel, rfl⟩ := Nat.exists_eq_add_of_le' hfuel
      unfold settle
      rw [Update.apply_bind, h]
      rfl
  | failed h =>
      obtain ⟨fuel, rfl⟩ := Nat.exists_eq_add_of_le' hfuel
      unfold settle
      rw [Update.apply_bind, h]
  | changed h _ ih =>
      obtain ⟨fuel, rfl⟩ := Nat.exists_eq_add_of_le' (Nat.le_of_add_left_le hfuel)
      unfold settle
      rw [Update.apply_bind, h]
      exact ih (Nat.le_of_add_le_add_right hfuel)

/-- The sweeps end.  All but the last one take at least one value from the store. -/
theorem exists_sweeps (hs : s.Consistent) (hhas : ∀ x ∈ Propagator.watched c, s.Has x) :
    ∃ n reply t, n ≤ s.weight + 1 ∧ Sweeps c.pairs s n reply t := by
  induction hweight : s.weight using Nat.strong_induction_on generalizing s with
  | _ weight ih =>
      obtain ⟨reply, t, happly, heffect, hpost⟩ := sweep_prunes hs
        (fun pair hpair x hx => hhas x (mem_watched hpair hx))
        (fun pair hpair x hx => mem_watched hpair hx) fun V hV => hV
      cases reply with
      | error w => exact ⟨1, _, t, by omega, .failed happly⟩
      | ok changed =>
          cases changed with
          | false => exact ⟨1, _, t, by omega, .unchanged happly⟩
          | true =>
              have hchanged : t.view ≠ s.view := fun hsame => by
                simpa using (hpost true rfl).1.mpr hsame
              have hlt := heffect.narrowing.weight_lt hchanged
              obtain ⟨n, reply, u, hn, hrest⟩ := ih t.weight (hweight ▸ hlt)
                (heffect.consistent hs) (fun x hx => heffect.narrowing.has_iff.mpr (hhas x hx)) rfl
              exact ⟨n + 1, reply, u, by omega, .changed happly hrest⟩

/-- A run ends as its sweeps do, and on the same store. -/
theorem propagate_of_sweeps (hs : s.Consistent) (hhas : ∀ x ∈ Propagator.watched c, s.Has x)
    (hsweeps : Sweeps c.pairs s n reply t) (hn : n ≤ s.weight + 1) :
    ∃ answer, c.propagate.apply s = .ok (answer, t) ∧ answer.map (fun _ => ()) = reply := by
  obtain ⟨answer, u, happly, -⟩ := propagate_prunes hs hhas
  have hrun : (do
      settle c.pairs (s.weight + 1)
      if ← Update.read c.isSeparated then
        return .entailed
      else
        return .stable : Update Verdict).apply s = .ok (answer, u) := happly
  rw [Update.apply_bind, hsweeps.settle_eq hn] at hrun
  cases reply with
  | error w =>
      obtain ⟨rfl, rfl⟩ := Prod.mk.inj (Except.ok.inj hrun)
      exact ⟨_, happly, rfl⟩
  | ok done =>
      dsimp only at hrun
      rw [Update.apply_bind, Update.apply_read] at hrun
      cases hseparated : c.isSeparated t with
      | error fault =>
          rw [hseparated] at hrun
          contradiction
      | ok separated =>
          rw [hseparated] at hrun
          cases separated with
          | true =>
              obtain ⟨rfl, rfl⟩ := Prod.mk.inj (Except.ok.inj hrun)
              exact ⟨_, happly, rfl⟩
          | false =>
              obtain ⟨rfl, rfl⟩ := Prod.mk.inj (Except.ok.inj hrun)
              exact ⟨_, happly, rfl⟩

/-- A second run repeats the verdict of the first one and leaves the store as it is. -/
theorem propagate_again {verdict : Verdict} (hs : s.Consistent)
    (hhas : ∀ x ∈ Propagator.watched c, s.Has x)
    (hrun : c.propagate.apply s = .ok (.ok verdict, t)) (changes : Array Var) :
    c.propagate.apply { t with changes } = .ok (.ok verdict, { t with changes }) := by
  obtain ⟨heffect, hclosed, hentailed⟩ := (propagate_prunes hs hhas).of_apply hrun
  have ht := heffect.consistent hs
  have ht' := ht.withChanges changes
  have hhas' : ∀ x ∈ Propagator.watched c, Store.Has { t with changes } x :=
    fun x hx => heffect.narrowing.has_iff.mpr (hhas x hx)
  obtain ⟨again, hagain⟩ := Filtering.propagate_of_closed (p := c) trivial ht' hhas' hclosed
  obtain ⟨-, -, hentailed'⟩ := (propagate_prunes ht' hhas').of_apply hagain
  have hsame : again = .entailed ↔ verdict = .entailed := hentailed'.trans hentailed.symm
  have hverdict : again = verdict := by
    cases again <;> cases verdict <;> simp_all
  exact hverdict ▸ hagain

/-- The sweeps of a run end, and if it does not fail, a second run changes nothing. -/
theorem propagate_settles (hs : s.Consistent) (hhas : ∀ x ∈ Propagator.watched c, s.Has x) :
    ∃ n reply t answer, n ≤ s.weight + 1 ∧ Sweeps c.pairs s n reply t ∧
      c.propagate.apply s = .ok (answer, t) ∧ answer.map (fun _ => ()) = reply ∧
      ∀ verdict, answer = .ok verdict → ∀ changes,
        c.propagate.apply { t with changes } = .ok (.ok verdict, { t with changes }) := by
  obtain ⟨n, reply, t, hn, hsweeps⟩ := exists_sweeps hs hhas
  obtain ⟨answer, hrun, hreply⟩ := propagate_of_sweeps hs hhas hsweeps hn
  refine ⟨n, reply, t, answer, hn, hsweeps, hrun, hreply, ?_⟩
  rintro verdict rfl changes
  exact propagate_again hs hhas hrun changes

/-- Three squares of side 2. -/
def column : NonOverlap :=
  ⟨[⟨⟨0⟩, .clamp 2, ⟨1⟩, .clamp 2⟩, ⟨⟨2⟩, .clamp 2, ⟨3⟩, .clamp 2⟩, ⟨⟨4⟩, .clamp 2, ⟨5⟩, .clamp 2⟩]⟩

/-- The last square is on top, which the pair of the first two does not know at first. -/
def lastOnTop : Store :=
  ⟨#[⟨0, 0⟩, ⟨2, 3⟩, ⟨0, 0⟩, ⟨0, 4⟩, ⟨0, 0⟩, ⟨0, 0⟩], #[], none⟩

/-- Only after the last pair has been pruned, the first square has to be above the second. -/
theorem propagate_settles_column :
    ∃ n t, n ≤ 12 ∧ Sweeps column.pairs lastOnTop n (.ok ()) t ∧
      column.propagate.apply lastOnTop = .ok (.ok .entailed, t) ∧
      t.domains = #[⟨0, 0⟩, ⟨2, 2⟩, ⟨0, 0⟩, ⟨4, 4⟩, ⟨0, 0⟩, ⟨0, 0⟩] ∧
      column.propagate.apply { t with changes := #[] } =
        .ok (.ok .entailed, { t with changes := #[] }) := by
  obtain ⟨n, reply, t, answer, hn, hsweeps, hrun, rfl, hagain⟩ :=
    propagate_settles (c := column) (s := lastOnTop) (by decide) (by decide)
  obtain ⟨rfl, rfl⟩ := Prod.mk.inj (Except.ok.inj hrun)
  exact ⟨n, _, hn, hsweeps, hrun, rfl, hagain _ rfl #[]⟩

end Loop

end NonOverlap

end FiniteDomain
