import FiniteDomain.Strategy
import FiniteDomain.Proofs.Narrowing

/-!
# Splitting

Whatever its policy, a brancher commits an alternative by narrowing one variable to a range that
depends on the choice alone.  The ranges of a choice made by a labelling, a bisection or a slicing
split the domain that the variable has at that moment: each value lies in exactly one of them.
-/

namespace FiniteDomain

/-- The number of positions that a choice can tell apart. -/
def Choice.positions : Nat := 4294967296

theorem Fault.rebuild_eq_ok {α β γ : Type} {x : Except Fault (α × β)} {build : β → γ} {a : α} {c : γ}
    (h : (do
      let (a, b) ← x
      return (a, build b)) = (.ok (a, c) : Except Fault (α × γ))) :
    ∃ b, x = .ok (a, b) ∧ build b = c := by
  rcases bind_eq_ok_iff.mp h with ⟨⟨a', b⟩, hx, h⟩
  simp only [pure, Except.pure, Except.ok.injEq, Prod.mk.injEq] at h
  rcases h with ⟨rfl, rfl⟩
  exact ⟨b, hx, rfl⟩

namespace Update

theorem ext {α : Type} {u v : Update α} (h : ∀ s, u.apply s = v.apply s) : u = v :=
  funext h

theorem read_const_bind {α β : Type} (f : Except Fault α) (g : α → Except Fault β) :
    read (fun _ => f >>= g) = read (fun _ => f) >>= fun a => read fun _ => g a := by
  apply ext
  intro s
  rw [apply_bind]
  cases f <;> rfl

end Update

namespace Labelling

def range (b : Labelling) (c : Choice) (alternative : Nat) : Except Fault (Var × Interval) := do
  let x ← b.vars.fetch c.pos
  let v := b.preferred c
  if alternative = 0 then
    return (x, .singleton v)
  else
    match b.preference with
    | .least => return (x, ⟨← Word.fit (v + 1), Word.greatest⟩)
    | .greatest => return (x, ⟨Word.least, ← Word.fit (v - 1)⟩)

/-- The preferred bound of a domain, and what is left of it without that bound. -/
def cell (b : Labelling) (d : Interval) : Nat → Interval
  | 0 =>
    match b.preference with
    | .least => .singleton d.lb
    | .greatest => .singleton d.ub
  | _ + 1 =>
    match b.preference with
    | .least => ⟨d.lb + 1, Word.greatest⟩
    | .greatest => ⟨Word.least, d.ub - 1⟩

end Labelling

namespace Bisection

def range (b : Bisection) (c : Choice) (alternative : Nat) : Except Fault (Var × Interval) := do
  let (x, _) ← b.entries.fetch c.pos
  if alternative = 0 then
    return (x, ⟨Word.least, middle c⟩)
  else
    return (x, ⟨← Word.fit (middle c + 1), Word.greatest⟩)

/-- The two halves of a domain. -/
def cell (d : Interval) : Nat → Interval
  | 0 => ⟨Word.least, Int.fdiv (d.lb + d.ub) 2⟩
  | _ + 1 => ⟨Int.fdiv (d.lb + d.ub) 2 + 1, Word.greatest⟩

end Bisection

namespace Slicing

def range (b : Slicing) (c : Choice) (alternative : Nat) : Except Fault (Var × Interval) := do
  Fault.check (alternative < c.alternatives)
  let item ← b.items.fetch c.pos
  return (item.position, slice item c alternative)

end Slicing

namespace CaseSplit

def range (b : CaseSplit) (alternative : Nat) : Except Fault (Var × Interval) := do
  return (b.var, ← b.cases.fetch alternative)

end CaseSplit

namespace Strategy

/-- The variable that an alternative narrows, and the bounds that it is given. -/
def range (c : Choice) (alternative : Nat) : Strategy → Except Fault (Var × Interval)
  | labelling b => b.range c alternative
  | bisection b => b.range c alternative
  | slicing b => b.range c alternative
  | caseSplit b => b.range alternative

/-- To commit an alternative is to narrow a variable to the range of the alternative. -/
theorem commit_eq (b : Strategy) (c : Choice) (alternative : Nat) :
    Brancher.commit b c alternative =
      Update.read (fun _ => b.range c alternative) >>= fun (x, d) =>
        discard (Update.narrow x d.lb d.ub) := by
  cases b with
  | labelling b =>
      change b.commit c alternative = Update.read (fun _ => b.range c alternative) >>= _
      unfold Labelling.commit Labelling.range
      rw [Update.read_const_bind, bind_assoc]
      congr 1
      funext x
      by_cases hfirst : alternative = 0
      · simp only [hfirst, if_true]
        rfl
      · simp only [hfirst, if_false]
        cases b.preference with
        | least =>
            simp only [Update.read_const_bind, bind_assoc]
            rfl
        | greatest =>
            simp only [Update.read_const_bind, bind_assoc]
            rfl
  | bisection b =>
      change b.commit c alternative = Update.read (fun _ => b.range c alternative) >>= _
      unfold Bisection.commit Bisection.range
      rw [Update.read_const_bind, bind_assoc]
      congr 1
      funext entry
      by_cases hfirst : alternative = 0
      · simp only [hfirst, if_true]
        rfl
      · simp only [hfirst, if_false, Update.read_const_bind, bind_assoc]
        rfl
  | slicing b =>
      change b.commit c alternative = Update.read (fun _ => b.range c alternative) >>= _
      unfold Slicing.commit Slicing.range
      simp only [Update.read_const_bind, bind_assoc]
      rfl
  | caseSplit b =>
      change Brancher.commit b c alternative = Update.read (fun _ => b.range alternative) >>= _
      unfold CaseSplit.range
      simp only [Update.read_const_bind, bind_assoc]
      rfl

theorem commit_eq_ok {b : Strategy} {c : Choice} {alternative : Nat} {s t : Store}
    {reply : Except Wipeout Unit}
    (h : (Brancher.commit b c alternative).apply s = .ok (reply, t)) :
    ∃ x d changed, b.range c alternative = .ok (x, d) ∧
      s.narrow x d.lb d.ub = .ok (changed, t) ∧ reply = changed.map fun _ => () := by
  rw [commit_eq, Update.apply_bind, Update.apply_read] at h
  cases hrange : b.range c alternative with
  | error f =>
      rw [hrange] at h
      simp [Except.map] at h
  | ok entry =>
      rcases entry with ⟨x, d⟩
      rw [hrange] at h
      simp only [Except.map, Update.apply_discard, Update.narrow, Update.apply_ofFunction] at h
      cases hnarrow : s.narrow x d.lb d.ub with
      | error f =>
          rw [hnarrow] at h
          contradiction
      | ok result =>
          rcases result with ⟨changed, u⟩
          rw [hnarrow] at h
          simp only [Except.ok.injEq, Prod.mk.injEq] at h
          rcases h with ⟨rfl, rfl⟩
          exact ⟨x, d, changed, rfl, hnarrow, rfl⟩

/-- The alternatives of the choice narrow one variable of the store, and each value of its domain
lies in the range of exactly one of them. -/
def Splits (b : Strategy) (c : Choice) (s : Store) : Prop :=
  ∃ (x : Var) (cell : Nat → Interval), s.Has x ∧
    (∀ alternative < c.alternatives, b.range c alternative = .ok (x, cell alternative)) ∧
      ∀ v ∈ s.view x, ∃! alternative, alternative < c.alternatives ∧ v ∈ cell alternative

/-- The positions of the variables fit the word in which a choice keeps its position.  Beyond that, a
choice would narrow another variable than the one that it was made for. -/
def Addressable : Strategy → Prop
  | labelling b => b.vars.size ≤ Choice.positions
  | bisection b => b.entries.size ≤ Choice.positions
  | slicing b => b.items.size ≤ Choice.positions
  | caseSplit _ => True

instance : DecidablePred Addressable
  | labelling b => inferInstanceAs (Decidable (b.vars.size ≤ Choice.positions))
  | bisection b => inferInstanceAs (Decidable (b.entries.size ≤ Choice.positions))
  | slicing b => inferInstanceAs (Decidable (b.items.size ≤ Choice.positions))
  | caseSplit _ => isTrue trivial

/-- The variables of a strategy by position. -/
def vars : Strategy → List Var
  | labelling b => b.vars.toList
  | bisection b => b.entries.toList.map Prod.fst
  | slicing b => b.items.toList.map SlicedItem.position
  | caseSplit b => [b.var]

/-- There are not more variables than keys, so that only repetitions can make a strategy longer. -/
theorem addressable_of_nodup {b : Strategy} {s : Store} (hnodup : b.vars.Nodup)
    (hhas : ∀ x ∈ b.vars, s.Has x) (hkeys : s.domains.size ≤ Table.greatestKey + 1) :
    b.Addressable := by
  have hindices : (b.vars.map Var.index).Nodup :=
    hnodup.map fun _ _ heq => Var.index_inj.mp heq
  have hsub : b.vars.map Var.index ⊆ List.range s.domains.size := by
    intro i hi
    rcases List.mem_map.mp hi with ⟨x, hx, rfl⟩
    exact List.mem_range.mpr (hhas x hx)
  have hlength := (hindices.subperm hsub).length_le
  rw [List.length_map, List.length_range] at hlength
  have hfits : b.vars.length ≤ Choice.positions := hlength.trans hkeys
  cases b with
  | labelling b => simpa [vars, Addressable] using hfits
  | bisection b => simpa [vars, Addressable] using hfits
  | slicing b => simpa [vars, Addressable] using hfits
  | caseSplit b => trivial

/-- All strategies split domains, except the one whose intervals are given. -/
def IsSplitting : Strategy → Prop
  | caseSplit _ => False
  | _ => True

instance : DecidablePred IsSplitting
  | labelling _ => isTrue trivial
  | bisection _ => isTrue trivial
  | slicing _ => isTrue trivial
  | caseSplit _ => isFalse id

end Strategy

private theorem existsUnique_of_two {member : Nat → Prop} (h : member 0 ↔ ¬ member 1) :
    ∃! alternative, alternative < 2 ∧ member alternative := by
  by_cases hfirst : member 0
  · refine ⟨0, ⟨by omega, hfirst⟩, ?_⟩
    rintro other ⟨hlt, hother⟩
    interval_cases other
    · rfl
    · exact absurd hother (h.mp hfirst)
  · have hsecond : member 1 := by
      by_contra hnot
      exact hfirst (h.mpr hnot)
    refine ⟨1, ⟨by omega, hsecond⟩, ?_⟩
    rintro other ⟨hlt, hother⟩
    interval_cases other
    · exact absurd hother hfirst
    · rfl

section Choose

variable {s : Store} {id : BrancherId} {c : Choice}

theorem Choice.wrapPos_of_lt {pos : Nat} (h : pos < positions) : wrapPos pos = pos :=
  Nat.mod_eq_of_lt h

theorem Labelling.choose_eq_ok {b b' : Labelling} (h : b.choose id s = .ok (c, b')) :
    b' = b ∧ ∃ pos x, b.vars[pos]? = some x ∧ s.Has x ∧
      c = .binary id pos (s.view x).lb (s.view x).ub := by
  unfold Labelling.choose at h
  rcases Fault.bind_eq_ok_iff.mp h with ⟨picked, -, h⟩
  cases picked with
  | none => simp at h
  | some pos =>
      rcases Fault.bind_eq_ok_iff.mp h with ⟨x, hx, h⟩
      rcases Fault.bind_eq_ok_iff.mp h with ⟨d, hd, h⟩
      rcases Store.domain_eq_ok_iff.mp hd with ⟨hhas, rfl⟩
      simp only [pure, Except.pure, Except.ok.injEq, Prod.mk.injEq] at h
      rcases h with ⟨rfl, rfl⟩
      exact ⟨rfl, pos, x, Table.fetch_eq_ok_iff.mp hx, hhas, rfl⟩

theorem Bisection.choose_eq_ok {b b' : Bisection} (h : b.choose id s = .ok (c, b')) :
    b' = b ∧ ∃ pos x need, b.entries[pos]? = some (x, need) ∧ s.Has x ∧
      c = .binary id pos (s.view x).lb (s.view x).ub := by
  unfold Bisection.choose at h
  rcases Fault.bind_eq_ok_iff.mp h with ⟨pos, -, h⟩
  split at h
  · rcases Fault.bind_eq_ok_iff.mp h with ⟨⟨x, need⟩, hx, h⟩
    rcases Fault.bind_eq_ok_iff.mp h with ⟨d, hd, h⟩
    rcases Store.domain_eq_ok_iff.mp hd with ⟨hhas, rfl⟩
    simp only [pure, Except.pure, Except.ok.injEq, Prod.mk.injEq] at h
    rcases h with ⟨rfl, rfl⟩
    exact ⟨rfl, pos, x, need, Table.fetch_eq_ok_iff.mp hx, hhas, rfl⟩
  · simp at h

theorem Slicing.count_eq_ok {width : Nat} {step : Nat} {n : Nat}
    (h : Slicing.count width step = .ok n) : n = width / (step + 1) + 1 := by
  unfold Slicing.count at h
  rcases Fault.bind_eq_ok_iff.mp h with ⟨_, -, h⟩
  simp only [pure, Except.pure, Except.ok.injEq, Int.toNat_natCast] at h
  rw [← h, show width + step + 1 = width + (step + 1) by omega, Nat.add_div_right _ (by omega)]

theorem Slicing.choose_eq_ok {b b' : Slicing} (h : b.choose id s = .ok (c, b')) :
    b' = b ∧ ∃ pos item, b.items[pos]? = some item ∧ s.Has item.position ∧
      c.brancher = id ∧ c.pos = Choice.wrapPos pos ∧ c.min = (s.view item.position).lb ∧
        c.max = (s.view item.position).ub ∧
          Slicing.count (c.max - c.min) item.width.length = .ok c.alternatives := by
  unfold Slicing.choose at h
  rcases Fault.bind_eq_ok_iff.mp h with ⟨pos, -, h⟩
  split at h
  · rcases Fault.bind_eq_ok_iff.mp h with ⟨item, hitem, h⟩
    rcases Fault.bind_eq_ok_iff.mp h with ⟨d, hd, h⟩
    rcases Store.domain_eq_ok_iff.mp hd with ⟨hhas, rfl⟩
    rcases Fault.bind_eq_ok_iff.mp h with ⟨width, hwidth, h⟩
    rcases Fault.bind_eq_ok_iff.mp h with ⟨n, hn, h⟩
    rcases Fault.bind_eq_ok_iff.mp h with ⟨choice, hchoice, h⟩
    rw [← (Word.fit_eq_ok_iff.mp hwidth).1] at hn
    simp only [pure, Except.pure, Except.ok.injEq, Prod.mk.injEq] at h
    rcases h with ⟨rfl, rfl⟩
    unfold Choice.promised at hchoice
    split at hchoice
    · rw [Except.ok.injEq] at hchoice
      subst hchoice
      exact ⟨rfl, pos, item, Table.fetch_eq_ok_iff.mp hitem, hhas, rfl, rfl, rfl, rfl, hn⟩
    · simp at hchoice
  · simp at h

end Choose

section Cells

variable {id : BrancherId} {pos : Nat} {d : Interval} {v : Int}

theorem Labelling.range_binary {b : Labelling} {x : Var}
    (hfetch : b.vars.fetch (Choice.wrapPos pos) = .ok x)
    (hd : Word.minValue ≤ d.lb ∧ d.lb ≤ d.ub ∧ d.ub ≤ Word.maxValue) (alternative : Nat) :
    b.range (.binary id pos d.lb d.ub) alternative = .ok (x, b.cell d alternative) := by
  have hlower : Word.fit (d.lb + 1) = .ok (d.lb + 1) := by
    simp only [Word.minValue, Word.maxValue] at hd
    apply Word.fit_of_mem <;> simp only [Word.least, Word.greatest] <;> omega
  have hupper : Word.fit (d.ub - 1) = .ok (d.ub - 1) := by
    simp only [Word.minValue, Word.maxValue] at hd
    apply Word.fit_of_mem <;> simp only [Word.least, Word.greatest] <;> omega
  unfold Labelling.range
  dsimp only [Choice.binary]
  rw [hfetch]
  cases alternative with
  | zero =>
      unfold Labelling.preferred Labelling.cell
      cases b.preference with
      | least => rfl
      | greatest => rfl
  | succ k =>
      unfold Labelling.preferred Labelling.cell
      cases b.preference with
      | least =>
          simp [bind, Except.bind, hlower]
          rfl
      | greatest =>
          simp [bind, Except.bind, hupper]
          rfl

theorem Labelling.mem_cell_zero_iff {b : Labelling}
    (hd : Word.minValue ≤ d.lb ∧ d.ub ≤ Word.maxValue) (hv : v ∈ d) :
    v ∈ b.cell d 0 ↔ v ∉ b.cell d 1 := by
  unfold Labelling.cell
  simp only [Word.minValue, Word.maxValue] at hd
  cases b.preference with
  | least =>
      simp only [Interval.mem_iff, Interval.singleton, Word.greatest] at *
      omega
  | greatest =>
      simp only [Interval.mem_iff, Interval.singleton, Word.least] at *
      omega

theorem Bisection.range_binary {b : Bisection} {x : Var} {need : SplitSize}
    (hfetch : b.entries.fetch (Choice.wrapPos pos) = .ok (x, need))
    (hd : Word.minValue ≤ d.lb ∧ d.lb ≤ d.ub ∧ d.ub ≤ Word.maxValue) (alternative : Nat) :
    b.range (.binary id pos d.lb d.ub) alternative = .ok (x, Bisection.cell d alternative) := by
  have hfit : Word.fit (Int.fdiv (d.lb + d.ub) 2 + 1) = .ok (Int.fdiv (d.lb + d.ub) 2 + 1) := by
    rw [Int.fdiv_eq_ediv_of_nonneg _ (by omega)]
    simp only [Word.minValue, Word.maxValue] at hd
    apply Word.fit_of_mem <;> simp only [Word.least, Word.greatest] <;> omega
  unfold Bisection.range
  dsimp only [Choice.binary]
  rw [hfetch]
  cases alternative with
  | zero => rfl
  | succ k =>
      simp [bind, Except.bind, Bisection.middle, hfit]
      rfl

theorem Bisection.mem_cell_zero_iff (hd : Word.minValue ≤ d.lb ∧ d.ub ≤ Word.maxValue)
    (hv : v ∈ d) : v ∈ Bisection.cell d 0 ↔ v ∉ Bisection.cell d 1 := by
  unfold Bisection.cell
  simp only [Word.minValue, Word.maxValue] at hd
  simp only [Interval.mem_iff, Word.least, Word.greatest] at *
  omega

/-- A slice has the numbers at a distance from the least value that leaves its number as quotient. -/
theorem Slicing.mem_slice_iff {item : SlicedItem} {c : Choice} {step alternative : Nat}
    (hstep : item.width.length = step) (hmax : c.max ≤ Word.maxValue)
    (hlt : alternative < (c.max - c.min).toNat / (step + 1) + 1)
    (hv : c.min ≤ v ∧ v ≤ c.max) :
    v ∈ Slicing.slice item c alternative ↔ alternative = (v - c.min).toNat / (step + 1) := by
  obtain ⟨offset, hoffset⟩ := Int.eq_ofNat_of_zero_le (show 0 ≤ v - c.min by omega)
  obtain ⟨width, hwidth⟩ := Int.eq_ofNat_of_zero_le (show 0 ≤ c.max - c.min by omega)
  -- the slice starts within the domain, so that its start is not cut
  have hstart : alternative * (step + 1) ≤ width := by
    rw [hwidth, Int.toNat_natCast] at hlt
    exact (Nat.le_div_iff_mul_le (by omega)).mp (Nat.lt_succ_iff.mp hlt)
  have hcast : (alternative : Int) * ((step : Int) + 1) = ((alternative * (step + 1) : Nat) : Int) := by
    push_cast
    ring
  have hquotient : alternative = offset / (step + 1) ↔
      alternative * (step + 1) ≤ offset ∧ offset < alternative * (step + 1) + (step + 1) := by
    rw [eq_comm, Nat.div_eq_iff (by omega)]
    omega
  rw [hoffset, Int.toNat_natCast, hquotient]
  unfold Slicing.slice
  simp only [Interval.mem_iff, hstep, hcast]
  omega

end Cells

namespace Strategy

variable {s : Store} {id : BrancherId} {c : Choice}

theorem splits_labelling {b b' : Labelling} (hs : s.Consistent)
    (hfits : b.vars.size ≤ Choice.positions) (h : b.choose id s = .ok (c, b')) :
    (labelling b').Splits c s := by
  obtain ⟨rfl, pos, x, hx, hhas, rfl⟩ := Labelling.choose_eq_ok h
  have hlt : pos < b'.vars.size := (Array.getElem?_eq_some_iff.mp hx).1
  have hfetch : b'.vars.fetch (Choice.wrapPos pos) = .ok x := by
    rw [Choice.wrapPos_of_lt (hlt.trans_le hfits)]
    exact Table.fetch_eq_ok_iff.mpr hx
  refine ⟨x, b'.cell (s.view x), hhas, ?_, ?_⟩
  · intro alternative _
    exact Labelling.range_binary hfetch ⟨hs.least x, hs.view x, hs.greatest x⟩ alternative
  · intro v hv
    exact existsUnique_of_two (Labelling.mem_cell_zero_iff ⟨hs.least x, hs.greatest x⟩ hv)

theorem splits_bisection {b b' : Bisection} (hs : s.Consistent)
    (hfits : b.entries.size ≤ Choice.positions) (h : b.choose id s = .ok (c, b')) :
    (bisection b').Splits c s := by
  obtain ⟨rfl, pos, x, need, hx, hhas, rfl⟩ := Bisection.choose_eq_ok h
  have hlt : pos < b'.entries.size := (Array.getElem?_eq_some_iff.mp hx).1
  have hfetch : b'.entries.fetch (Choice.wrapPos pos) = .ok (x, need) := by
    rw [Choice.wrapPos_of_lt (hlt.trans_le hfits)]
    exact Table.fetch_eq_ok_iff.mpr hx
  refine ⟨x, Bisection.cell (s.view x), hhas, ?_, ?_⟩
  · intro alternative _
    exact Bisection.range_binary hfetch ⟨hs.least x, hs.view x, hs.greatest x⟩ alternative
  · intro v hv
    exact existsUnique_of_two (Bisection.mem_cell_zero_iff ⟨hs.least x, hs.greatest x⟩ hv)

theorem splits_slicing {b b' : Slicing} (hs : s.Consistent)
    (hfits : b.items.size ≤ Choice.positions) (h : b.choose id s = .ok (c, b')) :
    (slicing b').Splits c s := by
  obtain ⟨rfl, pos, item, hitem, hhas, -, hpos, hmin, hmax, hcount⟩ := Slicing.choose_eq_ok h
  have hlt : pos < b'.items.size := (Array.getElem?_eq_some_iff.mp hitem).1
  have hfetch : b'.items.fetch c.pos = .ok item := by
    rw [hpos, Choice.wrapPos_of_lt (hlt.trans_le hfits)]
    exact Table.fetch_eq_ok_iff.mpr hitem
  obtain ⟨step, hstep⟩ := Int.eq_ofNat_of_zero_le item.width.nonneg
  have hle : c.min ≤ c.max := by
    rw [hmin, hmax]
    exact hs.view item.position
  have hgreatest : c.max ≤ Word.maxValue := by
    rw [hmax]
    exact hs.greatest item.position
  have hnumber : c.alternatives = (c.max - c.min).toNat / (step + 1) + 1 := by
    apply Slicing.count_eq_ok
    rw [← hstep, Int.toNat_of_nonneg (by omega)]
    exact hcount
  refine ⟨item.position, Slicing.slice item c, hhas, ?_, ?_⟩
  · intro alternative hless
    change b'.range c alternative = _
    unfold Slicing.range
    rw [decide_eq_true hless, Fault.check_true, hfetch]
    rfl
  · intro v hv
    have hv' : c.min ≤ v ∧ v ≤ c.max := by
      rw [hmin, hmax]
      exact hv
    have hquotient : (v - c.min).toNat / (step + 1) < c.alternatives := by
      rw [hnumber, Nat.lt_succ_iff]
      exact Nat.div_le_div_right (by omega)
    refine ⟨(v - c.min).toNat / (step + 1), ⟨hquotient, ?_⟩, ?_⟩
    · rw [hnumber] at hquotient
      exact (Slicing.mem_slice_iff hstep hgreatest hquotient hv').mpr rfl
    · rintro other ⟨hless, hmem⟩
      rw [hnumber] at hless
      exact (Slicing.mem_slice_iff hstep hgreatest hless hv').mp hmem

theorem splits_of_choose {b b' : Strategy} (hs : s.Consistent) (hsplitting : b.IsSplitting)
    (hfits : b.Addressable) (h : Brancher.choose b id s = .ok (c, b')) : b'.Splits c s := by
  change b.choose id s = .ok (c, b') at h
  cases b with
  | labelling b =>
      obtain ⟨b'', hchoose, rfl⟩ := Fault.rebuild_eq_ok h
      exact splits_labelling hs hfits hchoose
  | bisection b =>
      obtain ⟨b'', hchoose, rfl⟩ := Fault.rebuild_eq_ok h
      exact splits_bisection hs hfits hchoose
  | slicing b =>
      obtain ⟨b'', hchoose, rfl⟩ := Fault.rebuild_eq_ok h
      exact splits_slicing hs hfits hchoose
  | caseSplit b => contradiction

end Strategy

end FiniteDomain
