import FiniteDomain.Watches

/-!
# Agenda

The propagators that wait for a run, first come first served.  One that already waits is not entered
again; a flag for each propagator answers that question without looking through the queue.  The
queue is held in two halves, so that its end is as near as its beginning: `waiting` puts them
together, and says what the operations do.
-/

namespace FiniteDomain

structure Agenda where
  /-- The first part of the queue. -/
  front : List PropagatorId
  /-- The rest of the queue, the last one first. -/
  back : List PropagatorId
  /-- For each propagator, whether it is in the queue. -/
  queued : Array Bool
deriving DecidableEq, Repr

namespace Agenda

def empty : Agenda where
  front := []
  back := []
  queued := #[]

def waiting (a : Agenda) : List PropagatorId :=
  a.front ++ a.back.reverse

def grow (a : Agenda) : Agenda :=
  { a with queued := a.queued.push false }

/-- Enters a propagator at the end, unless it waits already. -/
def insert (a : Agenda) (id : PropagatorId) : Agenda :=
  if a.queued[id]? = some true then
    a
  else
    { a with back := id :: a.back, queued := a.queued.setIfInBounds id true }

/-- The agenda after `id` has left it, with the two parts of the queue that remain. -/
def remove (a : Agenda) (id : PropagatorId) (front back : List PropagatorId) : Agenda where
  front := front
  back := back
  queued := a.queued.setIfInBounds id false

/-- The propagator that has waited longest, if there is one, and the agenda without it. -/
def next (a : Agenda) : Option PropagatorId × Agenda :=
  match a.front with
  | id :: rest => (some id, a.remove id rest a.back)
  | [] =>
    match a.back.reverse with
    | [] => (none, a)
    | id :: rest => (some id, a.remove id rest [])

def clear (a : Agenda) : Agenda where
  front := []
  back := []
  queued := Array.replicate a.queued.size false

@[simp] theorem waiting_empty : empty.waiting = [] := rfl

@[simp] theorem waiting_grow (a : Agenda) : a.grow.waiting = a.waiting := rfl

@[simp] theorem waiting_clear (a : Agenda) : a.clear.waiting = [] := rfl

theorem waiting_insert (a : Agenda) (id : PropagatorId) :
    (a.insert id).waiting = if a.queued[id]? = some true then a.waiting else a.waiting ++ [id] := by
  unfold insert
  split <;> simp [waiting]

theorem next_eq_none_iff {a b : Agenda} : a.next = (none, b) ↔ a.waiting = [] ∧ b = a := by
  unfold next waiting
  split
  · rename_i hfront
    simp [hfront]
  · rename_i hfront
    split
    · rename_i hback
      simp [hfront, hback, eq_comm]
    · rename_i hback
      simp [hfront, hback]

theorem waiting_of_next {a b : Agenda} {id : PropagatorId} (hnext : a.next = (some id, b)) :
    a.waiting = id :: b.waiting ∧ b.queued = a.queued.setIfInBounds id false := by
  unfold next at hnext
  split at hnext
  · rename_i hfront
    simp only [Option.some.injEq, Prod.mk.injEq] at hnext
    obtain ⟨rfl, rfl⟩ := hnext
    simp [waiting, remove, hfront]
  · rename_i hfront
    split at hnext
    · simp at hnext
    · rename_i hback
      simp only [Option.some.injEq, Prod.mk.injEq] at hnext
      obtain ⟨rfl, rfl⟩ := hnext
      simp [waiting, remove, hfront, hback]

/-- The flags say which propagators are in the queue, and each is there at most once. -/
structure Consistent (a : Agenda) : Prop where
  nodup : a.waiting.Nodup
  mem_iff : ∀ id, id ∈ a.waiting ↔ a.queued[id]? = some true

theorem consistent_empty : empty.Consistent where
  nodup := List.nodup_nil
  mem_iff := by simp [empty, waiting]

theorem consistent_clear (a : Agenda) : a.clear.Consistent where
  nodup := List.nodup_nil
  mem_iff id := by simp [clear, waiting, Array.getElem?_replicate]

theorem Consistent.lt_size {a : Agenda} (h : a.Consistent) {id : PropagatorId}
    (hid : id ∈ a.waiting) : id < a.queued.size := by
  have hflag := (h.mem_iff id).1 hid
  obtain ⟨hlt, -⟩ := Array.getElem?_eq_some_iff.1 hflag
  exact hlt

theorem Consistent.grow {a : Agenda} (h : a.Consistent) : a.grow.Consistent where
  nodup := h.nodup
  mem_iff id := by
    have hid := h.mem_iff id
    rw [waiting_grow]
    simp only [Agenda.grow, Array.getElem?_push]
    split
    · rename_i heq
      subst heq
      simp_all
    · exact hid

theorem Consistent.insert {a : Agenda} (h : a.Consistent) {id : PropagatorId}
    (hid : id < a.queued.size) : (a.insert id).Consistent := by
  by_cases hflag : a.queued[id]? = some true
  · have hsame : a.insert id = a := by simp [Agenda.insert, hflag]
    rw [hsame]
    exact h
  · have hnot : id ∉ a.waiting := fun hmem => hflag ((h.mem_iff id).1 hmem)
    have hwaiting : (a.insert id).waiting = a.waiting ++ [id] := by
      rw [waiting_insert, if_neg hflag]
    have hqueued : (a.insert id).queued = a.queued.setIfInBounds id true := by
      simp [Agenda.insert, hflag]
    constructor
    · rw [hwaiting]
      refine List.nodup_append.2 ⟨h.nodup, by simp, ?_⟩
      intro first hfirst second hsecond heq
      rw [List.mem_singleton] at hsecond
      exact hnot (hsecond ▸ heq ▸ hfirst)
    · intro other
      rw [hwaiting, hqueued]
      by_cases heq : other = id
      · subst heq
        simp [hid]
      · have hother := h.mem_iff other
        simp [heq, Ne.symm heq, hother]

theorem Consistent.next {a b : Agenda} (h : a.Consistent) {id : PropagatorId}
    (hnext : a.next = (some id, b)) : b.Consistent ∧ id ∉ b.waiting := by
  obtain ⟨hwaiting, hqueued⟩ := waiting_of_next hnext
  have hnodup := h.nodup
  rw [hwaiting, List.nodup_cons] at hnodup
  refine ⟨⟨hnodup.2, ?_⟩, hnodup.1⟩
  intro other
  have hother := h.mem_iff other
  rw [hwaiting, List.mem_cons] at hother
  rw [hqueued]
  simp only [Array.getElem?_setIfInBounds]
  split
  · rename_i heq
    subst heq
    split <;> simp [hnodup.1]
  · rename_i hne
    rw [← hother]
    simp [Ne.symm hne]

end Agenda

end FiniteDomain
