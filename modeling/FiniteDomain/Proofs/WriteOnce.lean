import FiniteDomain.Parameter

/-!
# Parameters are written once

A parameter is used by a process whose environment may change at any time.  Each call offers it a
value: a read offers what the environment says at the moment, if that can be parsed, or else the
fallback, and a program that sets the parameter offers a value of its own.  A read that has nothing to
offer faults, and leaves the parameter open.

Whatever is called, and however often the environment changes in between, the value is the first one
that was offered.  All later calls find the parameter fixed.

The value may be kept in any cell that is written while it is empty and not afterwards, which is all that
the calls need of it.
-/

namespace FiniteDomain

namespace Parameter

variable {α : Type}

/-- What is said about each variable. -/
abbrev Environment := String → Reading

/-- A parameter within the process that uses it. -/
structure Process (α : Type) where
  parameter : Parameter α
  environment : Environment

/-- What can happen in a process: one of the calls, or a change of the environment. -/
inductive Action (α : Type)
  /-- Reads the value, or a reference to it. -/
  | get
  | trySet (a : α)
  | set (a : α)
  | change (environment : Environment)

inductive Reply (α : Type)
  | value (a : α)
  | done
  | rejected (a : α)
  | faulted (f : ParameterFault)

/-- A call that faults or is rejected is survived by the process, and leaves it as it was. -/
def Action.perform : Action α → Process α → Reply α × Process α
  | get, s =>
    match s.parameter.get (s.environment s.parameter.name) with
    | .ok (a, p) => (.value a, { s with parameter := p })
    | .error f => (.faulted f, s)
  | trySet a, s =>
    match s.parameter.trySet a with
    | .ok p => (.done, { s with parameter := p })
    | .error a => (.rejected a, s)
  | set a, s =>
    match s.parameter.set a with
    | .ok p => (.done, { s with parameter := p })
    | .error f => (.faulted f, s)
  | change environment, s => (.done, { s with environment })

/-- The process after some actions. -/
def Process.after (s : Process α) (actions : List (Action α)) : Process α :=
  actions.foldl (fun s act => (act.perform s).2) s

/-- The process once its parameter has been fixed. -/
def Process.fixed (s : Process α) (a : α) : Process α :=
  { s with parameter := { s.parameter with value := some a } }

/-! ## Offers -/

/-- The value of the text, if there is one that can be parsed, or else that of the fallback. -/
def parsed (p : Parameter α) : Reading → Option α
  | .text s => (p.parse s).or (p.parse p.fallback)
  | _ => p.parse p.fallback

namespace Action

/-- The value that an action offers to the parameter. -/
def offer (p : Parameter α) (environment : Environment) : Action α → Option α
  | get => p.parsed (environment p.name)
  | trySet a => some a
  | set a => some a
  | change _ => none

/-- The environment after an action. -/
def environment (current : Environment) : Action α → Environment
  | change new => new
  | _ => current

end Action

/-- The values that actions offer, each in the environment of its time. -/
def offers (p : Parameter α) : Environment → List (Action α) → List α
  | _, [] => []
  | environment, act :: rest =>
    (act.offer p environment).toList ++ p.offers (act.environment environment) rest

theorem eq_of_value {p : Parameter α} {value : Option α} (h : p.value = value) :
    { p with value } = p := by
  rw [← h]

/-- A parameter is offered the same whether it has a value or not. -/
theorem offers_withValue (p : Parameter α) (value : Option α) (environment : Environment)
    (actions : List (Action α)) :
    offers { p with value } environment actions = p.offers environment actions := by
  induction actions generalizing environment with
  | nil => rfl
  | cons act rest ih =>
      have hoffer : act.offer { p with value } environment = act.offer p environment := by
        cases act <;> rfl
      simp only [offers, hoffer, ih]

theorem resolve_eq (p : Parameter α) (r : Reading) :
    p.resolve r = (p.parsed r).elim (.error (.unparsableFallback p.name p.fallback)) .ok := by
  unfold resolve parsed
  cases r with
  | absent => cases p.parse p.fallback <;> rfl
  | undecodable => cases p.parse p.fallback <;> rfl
  | text s =>
      dsimp only
      cases p.parse s with
      | none => cases p.parse p.fallback <;> rfl
      | some a => rfl

/-! ## Calls -/

section Calls

variable {s : Process α} {a : α}

theorem get_of_fixed (hs : s.parameter.value = some a) : Action.get.perform s = (.value a, s) := by
  simp [Action.perform, get, hs]

theorem trySet_of_fixed (hs : s.parameter.value = some a) (v : α) :
    (Action.trySet v).perform s = (.rejected v, s) := by
  simp [Action.perform, trySet, hs]

theorem set_of_fixed (hs : s.parameter.value = some a) (v : α) :
    (Action.set v).perform s = (.faulted (.alreadyResolved s.parameter.name), s) := by
  simp [Action.perform, set, trySet, hs]

theorem get_of_open (hs : s.parameter.value = none)
    (ha : s.parameter.parsed (s.environment s.parameter.name) = some a) :
    Action.get.perform s = (.value a, s.fixed a) := by
  simp [Action.perform, get, resolve_eq, Process.fixed, hs, ha]

theorem get_of_unparsable (hs : s.parameter.value = none)
    (hnone : s.parameter.parsed (s.environment s.parameter.name) = none) :
    Action.get.perform s =
      (.faulted (.unparsableFallback s.parameter.name s.parameter.fallback), s) := by
  simp [Action.perform, get, resolve_eq, hs, hnone]

theorem trySet_of_open (hs : s.parameter.value = none) (v : α) :
    (Action.trySet v).perform s = (.done, s.fixed v) := by
  simp [Action.perform, trySet, Process.fixed, hs]

theorem set_of_open (hs : s.parameter.value = none) (v : α) :
    (Action.set v).perform s = (.done, s.fixed v) := by
  simp [Action.perform, set, trySet, Process.fixed, hs]

end Calls

/-- An offer is taken if there is no value yet, and that is all that happens to the parameter. -/
theorem perform_eq (act : Action α) (s : Process α) :
    (act.perform s).2 =
      { parameter :=
          { s.parameter with
            value := s.parameter.value.or (act.offer s.parameter s.environment) }
        environment := act.environment s.environment } := by
  cases hs : s.parameter.value with
  | some a =>
      rw [Option.some_or, eq_of_value hs]
      cases act with
      | get => rw [get_of_fixed hs]; rfl
      | trySet v => rw [trySet_of_fixed hs]; rfl
      | set v => rw [set_of_fixed hs]; rfl
      | change new => rfl
  | none =>
      rw [Option.none_or]
      cases act with
      | get =>
          cases ha : s.parameter.parsed (s.environment s.parameter.name) with
          | some a => rw [get_of_open hs ha, Action.offer, ha]; rfl
          | none => rw [get_of_unparsable hs ha, Action.offer, ha, eq_of_value hs]; rfl
      | trySet v => rw [trySet_of_open hs]; rfl
      | set v => rw [set_of_open hs]; rfl
      | change new => rw [Action.offer, eq_of_value hs]; rfl

/-- The first offer is taken, unless there was a value before. -/
theorem after_eq (s : Process α) (actions : List (Action α)) :
    s.after actions =
      { parameter :=
          { s.parameter with
            value := s.parameter.value.or (s.parameter.offers s.environment actions).head? }
        environment := actions.foldl Action.environment s.environment } := by
  induction actions generalizing s with
  | nil => simp [Process.after, offers]
  | cons act rest ih =>
      have hrest := ih (act.perform s).2
      rw [perform_eq, offers_withValue] at hrest
      calc
        s.after (act :: rest) = Process.after (act.perform s).2 rest := rfl
        _ = _ := by
          rw [perform_eq, hrest]
          simp [offers, Option.or_assoc]

/-! ## Cells -/

/-- A place where a value is kept.  A read may come with a computation of the value. -/
structure Cell (κ α : Type) where
  empty : κ
  contents : κ → Option α
  set : κ → α → Except α Unit × κ
  getOrInit : κ → Except ParameterFault α → Except ParameterFault α × κ

/-- The cell is written while it is empty.  A value that comes later is handed back, and a read of a full
cell leaves the computation aside; one that faults leaves the cell empty. -/
structure Cell.Lawful {κ : Type} (c : Cell κ α) : Prop where
  contents_empty : c.contents c.empty = none
  set_empty : ∀ k a, c.contents k = none →
    ∃ k', c.set k a = (.ok (), k') ∧ c.contents k' = some a
  set_full : ∀ k a b, c.contents k = some b →
    ∃ k', c.set k a = (.error a, k') ∧ c.contents k' = some b
  getOrInit_empty : ∀ k computed, c.contents k = none →
    ∃ k', c.getOrInit k computed = (computed, k') ∧ c.contents k' = computed.toOption
  getOrInit_full : ∀ k computed b, c.contents k = some b →
    ∃ k', c.getOrInit k computed = (.ok b, k') ∧ c.contents k' = some b

section Cells

variable {κ : Type} {c : Cell κ α} {k : κ} {s : Process α}

/-- An action on a parameter whose value is kept in a cell. -/
def Action.performIn (c : Cell κ α) (p : Parameter α) (environment : Environment) (k : κ) :
    Action α → Reply α × κ
  | get =>
    match c.getOrInit k (p.resolve (environment p.name)) with
    | (.ok a, k) => (.value a, k)
    | (.error f, k) => (.faulted f, k)
  | trySet a =>
    match c.set k a with
    | (.ok _, k) => (.done, k)
    | (.error a, k) => (.rejected a, k)
  | set a =>
    match c.set k a with
    | (.ok _, k) => (.done, k)
    | (.error _, k) => (.faulted (.alreadyResolved p.name), k)
  | change _ => (.done, k)

/-- The replies to some actions, on a parameter whose value is kept in a cell. -/
def repliesIn (c : Cell κ α) (p : Parameter α) :
    Environment → κ → List (Action α) → List (Reply α)
  | _, _, [] => []
  | environment, k, act :: rest =>
    let (reply, k) := act.performIn c p environment k
    reply :: p.repliesIn c (act.environment environment) k rest

def Process.replies : Process α → List (Action α) → List (Reply α)
  | _, [] => []
  | s, act :: rest =>
    let (reply, s) := act.perform s
    reply :: s.replies rest

theorem repliesIn_withValue (p : Parameter α) (value : Option α) (environment : Environment)
    (actions : List (Action α)) :
    repliesIn c { p with value } environment k actions = p.repliesIn c environment k actions := by
  induction actions generalizing environment k with
  | nil => rfl
  | cons act rest ih =>
      have hperform : act.performIn c { p with value } environment k =
          act.performIn c p environment k := by
        cases act <;> rfl
      simp only [repliesIn, hperform, ih]

theorem Cell.Lawful.performIn (hc : c.Lawful) (hk : c.contents k = s.parameter.value)
    (act : Action α) :
    (act.performIn c s.parameter s.environment k).1 = (act.perform s).1 ∧
      c.contents (act.performIn c s.parameter s.environment k).2 =
        (act.perform s).2.parameter.value := by
  cases hs : s.parameter.value with
  | none =>
      rw [hs] at hk
      cases act with
      | get =>
          have hresolve := s.parameter.resolve_eq (s.environment s.parameter.name)
          cases hparsed : s.parameter.parsed (s.environment s.parameter.name) with
          | some a =>
              obtain ⟨k', hread, hk'⟩ := hc.getOrInit_empty k (.ok a) hk
              simp [Action.performIn, get_of_open hs hparsed, hresolve, hparsed, hread, hk',
                Process.fixed, Except.toOption]
          | none =>
              obtain ⟨k', hread, hk'⟩ := hc.getOrInit_empty k
                (.error (.unparsableFallback s.parameter.name s.parameter.fallback)) hk
              simp [Action.performIn, get_of_unparsable hs hparsed, hresolve, hparsed, hread, hk', hs,
                Except.toOption]
      | trySet a =>
          obtain ⟨k', hset, hk'⟩ := hc.set_empty k a hk
          simp [Action.performIn, trySet_of_open hs, hset, hk', Process.fixed]
      | set a =>
          obtain ⟨k', hset, hk'⟩ := hc.set_empty k a hk
          simp [Action.performIn, set_of_open hs, hset, hk', Process.fixed]
      | change environment => exact ⟨rfl, hk.trans hs.symm⟩
  | some b =>
      rw [hs] at hk
      cases act with
      | get =>
          obtain ⟨k', hread, hk'⟩ := hc.getOrInit_full k
            (s.parameter.resolve (s.environment s.parameter.name)) b hk
          simp [Action.performIn, get_of_fixed hs, hread, hk', hs]
      | trySet a =>
          obtain ⟨k', hset, hk'⟩ := hc.set_full k a b hk
          simp [Action.performIn, trySet_of_fixed hs, hset, hk', hs]
      | set a =>
          obtain ⟨k', hset, hk'⟩ := hc.set_full k a b hk
          simp [Action.performIn, set_of_fixed hs, hset, hk', hs]
      | change environment => exact ⟨rfl, hk.trans hs.symm⟩

theorem Cell.Lawful.repliesIn_eq (hc : c.Lawful) (hk : c.contents k = s.parameter.value)
    (actions : List (Action α)) :
    s.parameter.repliesIn c s.environment k actions = s.replies actions := by
  induction actions generalizing s k with
  | nil => rfl
  | cons act rest ih =>
      obtain ⟨hreply, hcontents⟩ := hc.performIn hk act
      have hrest := ih hcontents
      rw [perform_eq, repliesIn_withValue] at hrest
      simp only [repliesIn, Process.replies, hreply]
      rw [perform_eq, hrest]

/-- The cell of a parameter that keeps its value itself. -/
def Cell.ofOption : Cell (Option α) α where
  empty := none
  contents k := k
  set
    | none, a => (.ok (), some a)
    | some b, a => (.error a, some b)
  getOrInit
    | none, computed => (computed, computed.toOption)
    | some b, _ => (.ok b, some b)

theorem Cell.lawful_ofOption : (Cell.ofOption : Cell (Option α) α).Lawful where
  contents_empty := rfl
  set_empty
    | none, a, _ => ⟨some a, rfl, rfl⟩
  set_full
    | some b, _, _, h => ⟨some b, rfl, h⟩
  getOrInit_empty
    | none, computed, _ => ⟨computed.toOption, rfl, rfl⟩
  getOrInit_full
    | some _, _, _, h => ⟨_, by rw [← Option.some.inj h]; rfl, h⟩

end Cells

/-- The value of a parameter is the first one that was offered to it, whether by a read, which offers
what can be parsed at that moment, or by the program, and whatever happens in between.  From then on
each read returns this value, in any environment, and no attempt to set another one succeeds or has an
effect.  As long as nothing was offered the parameter is open: a read that cannot be answered faults
and changes nothing, and the next offer will be taken.  The replies are the same whatever cell the value
is kept in, if it is written only while it is empty. -/
theorem first_offer_lasts (name fallback : String) (parse : String → Option α)
    (environment : Environment) (actions : List (Action α)) :
    let p := unresolved name fallback parse
    let s := Process.after ⟨p, environment⟩ actions
    s.parameter.value = (p.offers environment actions).head? ∧
    (∀ a, s.parameter.value = some a → ∀ later,
      let t := s.after later
      t.parameter = s.parameter ∧ Action.get.perform t = (.value a, t) ∧
        ∀ v, (Action.trySet v).perform t = (.rejected v, t) ∧
          (Action.set v).perform t = (.faulted (.alreadyResolved name), t)) ∧
    (s.parameter.value = none →
      (∀ a, p.parsed (s.environment name) = some a →
        Action.get.perform s = (.value a, s.fixed a)) ∧
      (p.parsed (s.environment name) = none →
        Action.get.perform s = (.faulted (.unparsableFallback name fallback), s)) ∧
      ∀ v, (Action.trySet v).perform s = (.done, s.fixed v) ∧
        (Action.set v).perform s = (.done, s.fixed v)) ∧
    ∀ (κ : Type) (c : Cell κ α), c.Lawful →
      p.repliesIn c environment c.empty actions = Process.replies ⟨p, environment⟩ actions := by
  intro p s
  have hs : s.parameter = { p with value := (p.offers environment actions).head? } := by
    simp [s, p, after_eq, unresolved]
  have hparsed : ∀ r, s.parameter.parsed r = p.parsed r := fun r => by rw [hs]; rfl
  have hname : s.parameter.name = name := by rw [hs]; rfl
  have hfallback : s.parameter.fallback = fallback := by rw [hs]; rfl
  refine ⟨by rw [hs], ?_, ?_, ?_⟩
  · intro a ha later t
    have ht : t.parameter = s.parameter := by
      simp only [t, after_eq s later, ha, Option.some_or]
      exact eq_of_value ha
    have hta : t.parameter.value = some a := by rw [ht, ha]
    refine ⟨ht, get_of_fixed hta, fun v => ⟨trySet_of_fixed hta v, ?_⟩⟩
    rw [set_of_fixed hta, ht, hname]
  · intro hopen
    refine ⟨?_, ?_, fun v => ⟨trySet_of_open hopen v, set_of_open hopen v⟩⟩
    · intro a ha
      exact get_of_open hopen (by rw [hparsed, hname, ha])
    · intro hnone
      rw [get_of_unparsable hopen (by rw [hparsed, hname, hnone]), hname, hfallback]
  · intro κ c hc
    exact hc.repliesIn_eq (s := ⟨p, environment⟩) hc.contents_empty actions

/-- The first read faults, since the fallback is no truth value, but the parameter can still be resolved.
What the environment says later does not count. -/
theorem first_offer_lasts_verbose :
    let p := unresolved "VERBOSE" "maybe" parseBool
    let actions := [.get, .change fun _ => .text "true", .get, .change fun _ => .text "false", .get]
    let s := Process.after ⟨p, fun _ => .absent⟩ actions
    p.repliesIn Cell.ofOption (fun _ => .absent) none actions =
      [.faulted (.unparsableFallback "VERBOSE" "maybe"), .done, .value true, .done, .value true] ∧
    s.parameter.value = some true ∧
    (Action.trySet false).perform s = (.rejected false, s) ∧
    (Action.set false).perform s = (.faulted (.alreadyResolved "VERBOSE"), s) ∧
    (s.after [.set false, .change fun _ => .absent]).parameter.value = some true := by
  intro p actions s
  obtain ⟨hvalue, hfixed, -, hcells⟩ :=
    first_offer_lasts "VERBOSE" "maybe" parseBool (fun _ => .absent) actions
  have htrue : s.parameter.value = some true := hvalue
  obtain ⟨-, -, hset⟩ := hfixed true htrue []
  obtain ⟨hlater, -⟩ := hfixed true htrue [.set false, .change fun _ => .absent]
  refine ⟨hcells _ _ Cell.lawful_ofOption, htrue, (hset false).1, (hset false).2, ?_⟩
  rw [hlater, htrue]

end Parameter

end FiniteDomain
