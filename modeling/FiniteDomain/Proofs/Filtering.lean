import FiniteDomain.Propagator
import FiniteDomain.Proofs.Pruning

/-!
# Filtering propagators

What an engine relies on, apart from how a propagator does its work.  A propagator has closed views,
of which it has nothing to remove, and it never loses one.  A run that changes nothing ends in a
closed view, and so does any run of an idempotent propagator that keeps its promise.  Once its
constraint is entailed, every smaller view is closed.
-/

namespace FiniteDomain

class Filtering (P : Type) [Propagator P] where
  /-- The views of which the propagator has nothing to remove. -/
  Closed : P → View → Prop
  /-- The views on which its constraint holds whatever values are taken. -/
  Entailed : P → View → Prop
  /-- The propagators whose runs stay within the machine word. -/
  Admissible : P → Prop
  /-- The propagators that keep their promise of idempotence. -/
  Settles : P → Prop
  prunes {p : P} {s : Store} : Admissible p → s.Consistent →
    (∀ x ∈ Propagator.watched p, s.Has x) →
    (Propagator.propagate p).Prunes (Propagator.watched p) (Closed p) s fun verdict t =>
      (t.view = s.view → Closed p t.view) ∧
        (Propagator.idempotent p = true → Settles p → Closed p t.view) ∧
        (verdict = .entailed → Entailed p t.view)
  closed_congr {p : P} {V W : View} :
    (∀ x ∈ Propagator.watched p, V x = W x) → Closed p V → Closed p W
  entailed_anti {p : P} {V W : View} :
    (∀ x ∈ Propagator.watched p, W x ≤ V x) → Entailed p V → Entailed p W
  closed_of_entailed {p : P} {V : View} : V.Consistent → Entailed p V → Closed p V

/-- On a closed view, a run of a propagator changes nothing. -/
theorem Filtering.propagate_of_closed {P : Type} [Propagator P] [Filtering P] {p : P} {s : Store}
    (hp : Filtering.Admissible p) (hs : s.Consistent) (hhas : ∀ x ∈ Propagator.watched p, s.Has x)
    (hclosed : Filtering.Closed p s.view) :
    ∃ verdict, (Propagator.propagate p).apply s = .ok (.ok verdict, s) := by
  obtain ⟨reply, t, happly, heffect, -⟩ := Filtering.prunes hp hs hhas
  have hkept := heffect.keeps s.view hs.view hclosed fun x _ => le_rfl
  rcases hkept.1 with ⟨verdict, hverdict⟩
  have hview : t.view = s.view := by
    funext x
    by_cases hx : x ∈ Propagator.watched p
    · have hxt := heffect.narrowing.has_iff.mpr (hhas x hx)
      exact le_antisymm (heffect.narrowing.view_le x) (hkept.2 x hxt)
    · exact heffect.frame x hx
  have hfine := heffect.agrees
  rw [hverdict] at happly hfine
  rw [heffect.narrowing.eq_of_view_eq hfine hview] at happly
  exact ⟨verdict, happly⟩

end FiniteDomain
