import FiniteDomain.Archive
import FiniteDomain.Table
import FiniteDomain.Word
import Mathlib.Tactic

/-!
# Archives as texts

An archive is written without blanks and read back as the same archive.  A number ends at the first
character that cannot belong to it, a name without quotes and escapes ends at the next quote, and an
object of such names and numbers is read member by member.
-/

namespace FiniteDomain

namespace Numeral

theorem head?_digits {n : Nat} (hn : 0 < n) : (digits n).head? ≠ some '0' := by
  induction n using Nat.strongRecOn with
  | ind n ih =>
      rw [digits]
      split
      · rename_i hless
        have hall : ∀ d < 10, 0 < d → digitChar d ≠ '0' := by decide
        simpa using hall n hless hn
      · have hrest := ih (n / 10) (by omega) (by omega)
        rw [List.head?_append_of_ne_nil _ (digits_ne_nil _)]
        exact hrest

theorem spanDigits_digits {rest : List Char} (n : Nat) (hrest : ∀ c ∈ rest.head?, isDigit c = false) :
    spanDigits (digits n ++ rest) = (digits n, rest) := by
  have hall : ∀ c ∈ digits n, isDigit c = true := List.all_eq_true.mp (all_isDigit_digits n)
  unfold spanDigits
  rw [List.takeWhile_append_of_pos hall, List.dropWhile_append_of_pos hall]
  cases rest with
  | nil => simp
  | cons c rest =>
      have hc : isDigit c = false := hrest c rfl
      simp [hc]

theorem Range.holds_iff {r : Range} {n : Int} :
    r.holds n = true ↔ r.least ≤ n ∧ n ≤ r.greatest := by
  unfold Range.holds
  rw [Bool.and_eq_true, decide_eq_true_eq, decide_eq_true_eq]

theorem ofInt_natCast (n : Nat) : ofInt n = digits n := by
  unfold ofInt
  rw [if_neg (by omega), Int.natAbs_natCast]

end Numeral

namespace Json

/-- What may follow a number within an object. -/
def EndsNumber (rest : List Char) : Prop :=
  ∃ c cs, rest = c :: cs ∧ (c = ',' ∨ c = '}')

theorem magnitude_digits {rest : List Char} (n : Nat) (hrest : EndsNumber rest) :
    magnitude (Numeral.digits n ++ rest) = some (n, true, rest) := by
  obtain ⟨c, cs, rfl, hc⟩ := hrest
  have hspan : Numeral.spanDigits (Numeral.digits n ++ c :: cs) = (Numeral.digits n, c :: cs) := by
    apply Numeral.spanDigits_digits
    intro c' hc'
    obtain rfl := Option.some.inj hc'
    rcases hc with rfl | rfl
    · rfl
    · rfl
  have hfraction : fraction (c :: cs) = some (false, c :: cs) := by
    rcases hc with rfl | rfl
    · rfl
    · rfl
  have hpower : power (c :: cs) = some (false, c :: cs) := by
    rcases hc with rfl | rfl
    · rfl
    · rfl
  have hleading : ((Numeral.digits n).isEmpty || ((Numeral.digits n).head? = some '0' &&
      (Numeral.digits n).length ≠ 1)) = false := by
    have hsome : (Numeral.digits n).isEmpty = false := by
      simp [Numeral.digits_ne_nil]
    rw [hsome, Bool.false_or]
    by_cases hzero : n = 0
    · have hdigits : Numeral.digits 0 = ['0'] := by
        rw [Numeral.digits]
        rfl
      rw [hzero, hdigits]
      rfl
    · simp [Numeral.head?_digits (Nat.pos_of_ne_zero hzero)]
  unfold magnitude
  rw [hspan]
  dsimp only
  rw [hleading, hfraction]
  simp [hpower, Numeral.value_digits]

/-- The first character of a number. -/
def BeginsNumber (c : Char) : Prop :=
  Numeral.isDigit c = true ∨ c = '-'

theorem exists_ofInt_eq_cons (n : Int) :
    ∃ c cs, Numeral.ofInt n = c :: cs ∧ BeginsNumber c ∧ (0 ≤ n → c ≠ '-') := by
  unfold Numeral.ofInt
  by_cases hn : n < 0
  · rw [if_pos hn]
    exact ⟨'-', _, rfl, Or.inr rfl, fun hpos => absurd hn (by omega)⟩
  · rw [if_neg hn]
    obtain ⟨c, cs, hcons⟩ := List.exists_cons_of_ne_nil (Numeral.digits_ne_nil n.natAbs)
    have hdigit : Numeral.isDigit c = true := by
      have hall := List.all_eq_true.mp (Numeral.all_isDigit_digits n.natAbs)
      rw [hcons] at hall
      exact hall c List.mem_cons_self
    refine ⟨c, cs, hcons, Or.inl hdigit, ?_⟩
    intro _ hminus
    rw [hminus] at hdigit
    contradiction

theorem number_ofInt {rest : List Char} (n : Int) (hrest : EndsNumber rest) :
    number (Numeral.ofInt n ++ rest) = some (.integer n, rest) := by
  by_cases hn : n < 0
  · have htext : Numeral.ofInt n = '-' :: Numeral.digits n.natAbs := if_pos hn
    rw [htext]
    change (magnitude (Numeral.digits n.natAbs ++ rest) >>= _) = _
    rw [magnitude_digits _ hrest]
    have hne : n.natAbs ≠ 0 := by omega
    simp [hne, abs_of_neg hn]
  · have htext : Numeral.ofInt n = Numeral.digits n.natAbs := if_neg hn
    obtain ⟨c, cs, hcons, -, hminus⟩ := exists_ofInt_eq_cons n
    have hunsigned : number (Numeral.ofInt n ++ rest) =
        (magnitude (Numeral.ofInt n ++ rest) >>= fun r =>
          return (if r.2.1 then .integer r.1 else .decimal, r.2.2)) := by
      rw [hcons, List.cons_append]
      unfold number
      split
      · rename_i heq
        exact absurd (List.cons.inj heq).1 (hminus (by omega))
      · rfl
    have hvalue : (n.natAbs : Int) = n := by omega
    rw [hunsigned, htext, magnitude_digits _ hrest]
    simp [hvalue]

theorem not_isBlank_of_beginsNumber {c : Char} (hc : BeginsNumber c) : isBlank c = false := by
  have hblank : ∀ c : Char, isBlank c = true → ¬ BeginsNumber c := by
    intro c hc
    simp only [isBlank, Bool.or_eq_true, decide_eq_true_eq] at hc
    unfold BeginsNumber
    rcases hc with ((rfl | rfl) | rfl) | rfl <;> decide
  by_contra hnot
  exact hblank c (Bool.not_eq_false _ ▸ hnot) hc

/-- What begins like a number is read as one. -/
theorem value_of_beginsNumber {c : Char} (hc : BeginsNumber c) (fuel : Nat) (cs : List Char) :
    value (fuel + 1) (c :: cs) = number (c :: cs) := by
  have hskip : skipBlanks (c :: cs) = c :: cs := by
    unfold skipBlanks
    rw [List.dropWhile_cons_of_neg (by simp [not_isBlank_of_beginsNumber hc])]
  have hothers : ['n', 't', 'f', '"', '[', '{'].all
      (fun c' => !(Numeral.isDigit c' || c' = '-')) = true := by
    decide
  have hother : ∀ c' ∈ ['n', 't', 'f', '"', '[', '{'], c ≠ c' := by
    intro c' hc' heq
    have hnot := List.all_eq_true.mp hothers c' hc'
    rw [← heq] at hnot
    rcases hc with hdigit | hminus
    · simp [hdigit] at hnot
    · simp [hminus] at hnot
  unfold value
  rw [hskip]
  split
  · rename_i heq
    exact absurd (List.cons.inj heq).1 (hother _ (by simp))
  · rename_i heq
    exact absurd (List.cons.inj heq).1 (hother _ (by simp))
  · rename_i heq
    exact absurd (List.cons.inj heq).1 (hother _ (by simp))
  · rename_i heq
    exact absurd (List.cons.inj heq).1 (hother _ (by simp))
  · rename_i heq
    exact absurd (List.cons.inj heq).1 (hother _ (by simp))
  · rename_i heq
    exact absurd (List.cons.inj heq).1 (hother _ (by simp))
  · rfl

/-- A character that stands for itself in a name. -/
def IsPlain (c : Char) : Prop :=
  c ≠ '"' ∧ c ≠ '\\' ∧ 32 ≤ c.toNat

instance : DecidablePred IsPlain :=
  fun c => inferInstanceAs (Decidable (c ≠ '"' ∧ c ≠ '\\' ∧ 32 ≤ c.toNat))

theorem pieces_of_isPlain {name : List Char} (hname : ∀ c ∈ name, IsPlain c) (rest : List Char) :
    pieces (name ++ '"' :: rest) = some (name.map .char, rest) := by
  induction name with
  | nil => simp [pieces]
  | cons c name ih =>
      obtain ⟨hquote, hescape, hcontrol⟩ := hname c List.mem_cons_self
      have hrest := ih fun c' hc' => hname c' (List.mem_cons_of_mem c hc')
      rw [List.cons_append, pieces.eq_def]
      split
      · contradiction
      · rename_i heq
        exact absurd (List.cons.inj heq).1 hquote
      · rename_i heq
        exact absurd (List.cons.inj heq).1 hescape
      · rename_i heq
        exact absurd (List.cons.inj heq).1 hescape
      · rename_i heq
        obtain ⟨rfl, rfl⟩ := List.cons.inj heq
        rw [if_neg (not_or.mpr ⟨not_lt.mpr hcontrol, hescape⟩), hrest]
        rfl

theorem content_map_char (name : List Char) : content (name.map .char) = some name := by
  induction name with
  | nil => rfl
  | cons c name ih =>
      rw [List.map_cons, content, ih]
      rfl

theorem value_ofInt {rest : List Char} (n : Int) (hrest : EndsNumber rest) (fuel : Nat) :
    value (fuel + 1) (Numeral.ofInt n ++ rest) = some (.integer n, rest) := by
  obtain ⟨c, cs, hcons, hbegins, -⟩ := exists_ofInt_eq_cons n
  have hnumber := number_ofInt n hrest
  rw [hcons, List.cons_append] at hnumber ⊢
  rw [value_of_beginsNumber hbegins]
  exact hnumber

section Members

variable {name rest : List Char} {n : Int} {fuel : Nat}

/-- A name and its number, without blanks. -/
def member (m : List Char × Int) : List Char :=
  '"' :: m.1 ++ '"' :: ':' :: Numeral.ofInt m.2

/-- A member is read up to what ends its number. -/
theorem members_member (hname : ∀ c ∈ name, IsPlain c) (hrest : EndsNumber rest) :
    members (fuel + 2) (member (name, n) ++ rest) =
      match skipBlanks rest with
      | ',' :: rest => do
        let (more, rest) ← members (fuel + 1) rest
        return ((some name, .integer n) :: more, rest)
      | '}' :: rest => return ([(some name, .integer n)], rest)
      | _ => none := by
  have htext : member (name, n) ++ rest = '"' :: (name ++ '"' :: ':' :: (Numeral.ofInt n ++ rest)) := by
    simp [member]
  rw [htext, members]
  change (pieces (name ++ '"' :: ':' :: (Numeral.ofInt n ++ rest)) >>= _) = _
  rw [pieces_of_isPlain hname]
  change (value (fuel + 1) (Numeral.ofInt n ++ rest) >>= _) = _
  rw [value_ofInt n hrest, ← content_map_char name]
  rfl

/-- The members of an object, without blanks. -/
def compact (m : List Char × Int) : List (List Char × Int) → List Char
  | [] => member m ++ ['}']
  | next :: rest => member m ++ ',' :: compact next rest

theorem length_lt_length_compact (m : List Char × Int) (ms : List (List Char × Int)) :
    ms.length < (compact m ms).length := by
  induction ms generalizing m with
  | nil => simp [compact]
  | cons next ms ih =>
      have hrest := ih next
      rw [compact, List.length_append, List.length_cons, List.length_cons]
      omega

theorem members_compact {m : List Char × Int} {ms : List (List Char × Int)}
    (hnames : ∀ m' ∈ m :: ms, ∀ c ∈ m'.1, IsPlain c) (hfuel : ms.length + 1 < fuel) :
    members fuel (compact m ms) = some ((m :: ms).map fun m => (some m.1, .integer m.2), []) := by
  -- the induction is on the members, each of which takes one unit of the fuel
  induction ms generalizing m fuel with
  | nil =>
      obtain ⟨k, rfl⟩ : ∃ k, fuel = k + 2 := Nat.exists_eq_add_of_le' hfuel
      exact members_member (hnames m List.mem_cons_self) ⟨'}', [], rfl, Or.inr rfl⟩
  | cons next ms ih =>
      rw [List.length_cons] at hfuel
      obtain ⟨k, rfl⟩ : ∃ k, fuel = k + 2 := Nat.exists_eq_add_of_le' (by omega)
      have hm := hnames m List.mem_cons_self
      have hrest : members (k + 1) (compact next ms) =
          some ((next :: ms).map fun m => (some m.1, .integer m.2), []) :=
        ih (fun m' hm' => hnames m' (List.mem_cons_of_mem m hm')) (by omega)
      have hends : EndsNumber (',' :: compact next ms) := ⟨',', _, rfl, Or.inl rfl⟩
      rw [compact, members_member hm hends]
      change (members (k + 1) (compact next ms) >>= _) = _
      rw [hrest]
      rfl

/-- An object of integers is read back as it was written. -/
theorem read_compact {m : List Char × Int} {ms : List (List Char × Int)}
    (hnames : ∀ m' ∈ m :: ms, ∀ c ∈ m'.1, IsPlain c) :
    read ('{' :: compact m ms) =
      some (.object ((m :: ms).map fun m => (some m.1, .integer m.2))) := by
  have hlength := length_lt_length_compact m ms
  have hmembers : members (2 * (compact m ms).length + 3) (compact m ms) =
      some ((m :: ms).map fun m => (some m.1, .integer m.2), []) :=
    members_compact hnames (by omega)
  obtain ⟨cs, hcs⟩ : ∃ cs, compact m ms = '"' :: cs := by
    cases ms with
    | nil => exact ⟨_, rfl⟩
    | cons next ms => exact ⟨_, rfl⟩
  unfold read
  rw [List.length_cons]
  change (value (2 * (compact m ms).length + 3 + 1) ('{' :: compact m ms) >>= _) = _
  rw [value]
  rw [hcs] at hmembers ⊢
  change ((members (2 * ('"' :: cs).length + 3) ('"' :: cs) >>= _) >>= _) = _
  rw [hmembers]
  rfl

end Members

end Json

namespace Archive

/-- The numbers of an archive are in the ranges in which they are kept. -/
structure Fits (a : Archive) : Prop where
  brancher : a.brancher ≤ Table.greatestKey
  pos : a.pos ≤ Table.greatestKey
  min : Word.least ≤ a.min ∧ a.min ≤ Word.greatest
  max : Word.least ≤ a.max ∧ a.max ≤ Word.greatest

/-- What is written after the number of the brancher. -/
def members (a : Archive) : List (List Char × Int) :=
  [("pos".toList, a.pos), ("min".toList, a.min), ("max".toList, a.max)]

theorem render_eq_compact (a : Archive) :
    a.render = '{' :: Json.compact ("brancher".toList, a.brancher) a.members := by
  have hbrancher := Numeral.ofInt_natCast a.brancher
  have hpos := Numeral.ofInt_natCast a.pos
  unfold render members
  rw [← hbrancher, ← hpos]
  simp only [Json.compact, Json.member, List.append_assoc, List.cons_append]
  rfl

theorem ofNumbers_of_fits {a : Archive} (h : a.Fits) :
    ofNumbers a.brancher a.pos a.min a.max = some a := by
  obtain ⟨hbrancher, hpos, hmin, hmax⟩ := h
  simp only [Table.greatestKey, Word.least, Word.greatest] at hbrancher hpos hmin hmax
  have hholds : (Numeral.Range.unsignedWord.holds a.brancher &&
      Numeral.Range.unsignedWord.holds a.pos && Numeral.Range.word.holds a.min &&
      Numeral.Range.word.holds a.max) = true := by
    simp only [Numeral.Range.holds_iff, Bool.and_eq_true]
    simp only [Numeral.Range.unsignedWord, Numeral.Range.word]
    omega
  unfold ofNumbers
  dsimp only
  rw [if_pos hholds, Int.toNat_natCast, Int.toNat_natCast]

/-- An archive is read back as it was written. -/
theorem read_render {a : Archive} (h : a.Fits) : read a.render = some a := by
  have hplain : ["brancher", "pos", "min", "max"].all
      (fun name => name.toList.all fun c => Json.IsPlain c) = true := by
    decide
  simp only [List.all_eq_true, decide_eq_true_eq] at hplain
  have hnames : ∀ m ∈ ("brancher".toList, (a.brancher : Int)) :: a.members,
      ∀ c ∈ m.1, Json.IsPlain c := by
    intro m hm
    have hmem : m.1 ∈ ["brancher", "pos", "min", "max"].map String.toList :=
      List.mem_map_of_mem (f := Prod.fst) hm
    rcases List.mem_map.mp hmem with ⟨name, hname, hchars⟩
    rw [← hchars]
    exact hplain name hname
  unfold read
  rw [render_eq_compact, Json.read_compact hnames]
  exact ofNumbers_of_fits h

end Archive

end FiniteDomain
