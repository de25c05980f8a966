import FiniteDomain.Proofs.EngineLoop
import FiniteDomain.Proofs.Requests

/-!
# Lineage

What can come of a node by requests.  Each request makes a node from a node, and the old one is still
there, so that the nodes made from one node form a tree of copies; a node leads to all the nodes in
the tree below it.  Propagators are of any kind here, and a commit may be of any choice.

The engine of a node changes in two ways only.  Posting adds a propagator, and propagation runs it.
-/

namespace FiniteDomain

namespace Node

section Effects

variable {P B : Type} {n m : Node P B}

theorem propagate_eq_ok [Propagator P] {failure : Option Wipeout} {events : List Event}
    (h : n.propagate = .ok (failure, events, m)) :
    ∃ r, n.engine.propagate n.store = .ok r ∧ r.failure = failure ∧ r.events = events ∧
      m = { n with engine := r.engine, store := r.store } := by
  unfold propagate at h
  rcases Fault.bind_eq_ok_iff.mp h with ⟨r, hr, hresult⟩
  have hparts := Except.ok.inj hresult
  simp only [Prod.mk.injEq] at hparts
  exact ⟨r, hr, hparts.1, hparts.2.1, hparts.2.2.symm⟩

variable [Brancher B]

/-- Asking for a choice looks at the domains and leaves them, and the engine, alone. -/
theorem chooseAmong_frame {count : Nat} {choice : Option Choice}
    (h : n.chooseAmong count = .ok (choice, m)) : m.store = n.store ∧ m.engine = n.engine := by
  induction count generalizing n with
  | zero =>
      rcases Prod.mk.inj (Except.ok.inj h) with ⟨-, rfl⟩
      exact ⟨rfl, rfl⟩
  | succ count ih =>
      unfold chooseAmong at h
      rcases Fault.bind_eq_ok_iff.mp h with ⟨b, -, hask⟩
      rcases Fault.bind_eq_ok_iff.mp hask with ⟨⟨left, b'⟩, -, hreply⟩
      cases left with
      | true =>
          rcases Fault.bind_eq_ok_iff.mp hreply with ⟨⟨c, b''⟩, -, hresult⟩
          rcases Prod.mk.inj (Except.ok.inj hresult) with ⟨-, rfl⟩
          exact ⟨rfl, rfl⟩
      | false =>
          have hrest := ih hreply
          exact hrest

theorem choose_frame {choice : Option Choice} (h : n.choose = .ok (choice, m)) :
    m.store = n.store ∧ m.engine = n.engine := by
  unfold choose at h
  rcases Fault.bind_eq_ok_iff.mp h with ⟨_, -, hamong⟩
  exact chooseAmong_frame hamong

theorem commit_eq_update {c : Choice} {alternative : Nat} {reply : Except Wipeout Unit}
    (h : n.commit c alternative = .ok (reply, m)) :
    ∃ b, n.branchers[c.brancher]? = some b ∧
      (Brancher.commit b c alternative).apply n.store = .ok (reply, m.store) ∧
      m = { n with store := m.store } := by
  unfold commit at h
  rcases Fault.bind_eq_ok_iff.mp h with ⟨_, -, hfetch⟩
  rcases Fault.bind_eq_ok_iff.mp hfetch with ⟨b, hb, hupdate⟩
  have hstore := update_eq_ok hupdate
  exact ⟨b, Table.fetch_eq_ok_iff.mp hb, hstore.1, hstore.2⟩

end Effects

variable {P : Type} [Propagator P] {n m : Node P Strategy}

/-- The nodes that one request makes from a node. -/
inductive Request (n : Node P Strategy) : Node P Strategy → Prop
  | newVar (lb ub : Int) : Request n (n.newVar lb ub).2
  | narrow {x : Var} {lb ub : Int} {reply : Except Wipeout Bool} {m : Node P Strategy}
      (h : n.update (Update.narrow x lb ub) = .ok (reply, m)) : Request n m
  | post (p : P) : Request n (n.post p).2
  | branch (b : Strategy) (hfresh : b.IsFresh) : Request n (n.branch b).2
  | choose {choice : Option Choice} {m : Node P Strategy} (h : n.choose = .ok (choice, m)) :
      Request n m
  | commit {c : Choice} {alternative : Nat} {reply : Except Wipeout Unit} {m : Node P Strategy}
      (h : n.commit c alternative = .ok (reply, m)) : Request n m
  | propagate {failure : Option Wipeout} {events : List Event} {m : Node P Strategy}
      (h : n.propagate = .ok (failure, events, m)) : Request n m

/-- The nodes that any number of requests make from a node. -/
def Leads : Node P Strategy → Node P Strategy → Prop :=
  Relation.ReflTransGen Request

/-- What a request does to the engine: a propagator is added, or the engine runs, if anything. -/
theorem Request.engine (h : n.Request m) :
    (∃ p, m.engine = (n.engine.add p).2) ∨ m.engine = n.engine ∨
      ∃ r, n.engine.propagate n.store = .ok r ∧ m.engine = r.engine := by
  cases h with
  | newVar lb ub => exact Or.inr (Or.inl rfl)
  | narrow h =>
      rw [(update_eq_ok h).2]
      exact Or.inr (Or.inl rfl)
  | post p =>
      unfold Node.post
      split
      · exact Or.inr (Or.inl rfl)
      · exact Or.inl ⟨p, rfl⟩
  | branch b hfresh =>
      unfold Node.branch
      split
      · exact Or.inr (Or.inl rfl)
      · exact Or.inr (Or.inl rfl)
  | choose h => exact Or.inr (Or.inl (choose_frame h).2)
  | commit h =>
      obtain ⟨b, -, -, hm⟩ := commit_eq_update h
      rw [hm]
      exact Or.inr (Or.inl rfl)
  | propagate h =>
      obtain ⟨r, hr, -, -, hm⟩ := propagate_eq_ok h
      rw [hm]
      exact Or.inr (Or.inr ⟨r, hr, rfl⟩)

theorem Request.isRetired (h : n.Request m) {id : PropagatorId}
    (hid : n.engine.isRetired id = true) : m.engine.isRetired id = true := by
  rcases h.engine with ⟨p, hadd⟩ | hsame | ⟨r, hr, hrun⟩
  · rw [hadd, Engine.isRetired_add]
    exact hid
  · rw [hsame]
    exact hid
  · rw [hrun]
    exact Engine.isRetired_of_moves (Engine.propagate_leaves hr).moves hid

/-- Requests keep the records of the engine in order. -/
theorem Request.tidy (h : n.Request m) (hn : n.engine.Tidy) : m.engine.Tidy := by
  rcases h.engine with ⟨p, hadd⟩ | hsame | ⟨r, hr, hrun⟩
  · rw [hadd]
    exact hn.add p
  · rw [hsame]
    exact hn
  · rw [hrun]
    exact hn.afterMoves (Engine.propagate_leaves hr).moves

theorem Leads.isRetired (h : n.Leads m) {id : PropagatorId} (hid : n.engine.isRetired id = true) :
    m.engine.isRetired id = true := by
  induction h with
  | refl => exact hid
  | tail _ hrequest ih => exact hrequest.isRetired ih

theorem Leads.tidy (h : n.Leads m) (hn : n.engine.Tidy) : m.engine.Tidy := by
  induction h with
  | refl => exact hn
  | tail _ hrequest ih => exact hrequest.tidy ih

theorem Leads.tail {l : Node P Strategy} (hln : l.Leads n) (hnm : n.Request m) : l.Leads m :=
  Relation.ReflTransGen.tail hln hnm

end Node

/-- The models that requests lead to, with what was asked for on the way forgotten. -/
theorem Model.Reachable.leads {asked : Table Interval} {ps : List Posting} {m : Model}
    (hm : Reachable asked ps m) : Node.Leads Node.empty m := by
  induction hm with
  | empty => exact .refl
  | newVar _ lb ub ih => exact ih.tail (.newVar lb ub)
  | narrow _ h ih => exact ih.tail (.narrow h)
  | post _ p _ ih => exact ih.tail (.post p.constraint)
  | branch _ b hfresh ih => exact ih.tail (.branch b hfresh)
  | choose _ h ih => exact ih.tail (.choose h)
  | commit _ _ _ h ih => exact ih.tail (.commit h)
  | propagate _ h ih => exact ih.tail (.propagate h)

end FiniteDomain
