import ProofWalk.Proofs.Machine.Invariants

/-!
# Histories of a machine

What callers ask of one machine, in any order: queries are started, states are saved and taken up again, code
is executed from any address, calls are resolved and states are expanded. A request may fail; the machine
that it leaves is asked on all the same. The states that requests need are among those saved before.

## Main definitions

* `Machine.Request`, `Machine.answer` — what can be asked, and what is handed out
* `Machine.History` — the machines and the saved states that requests lead to

## Main results

* `Contract.Suits.answer_keeps` — every answer keeps a contract that the code suits
* `Machine.History.keeps` — so does every history
-/

namespace ProofWalk

namespace Machine

/-- What can be asked of a machine. -/
inductive Request where
  | startQuery (q : Query)
  | save
  | restore (s : State)
  | executeFrom (address : Nat)
  | execute
  | resolve (values : List String)
  | outlinks (s : State)

/-- The states that a request needs. -/
def Request.needs : Request → List State
  | .restore s | .outlinks s => [s]
  | .startQuery _ | .save | .executeFrom _ | .execute | .resolve _ => []

/-- The states that are handed out for a request, and what the machine becomes. -/
def answer (m : Machine) : Request → Except Error (List State) × Machine
  | .startQuery q => ((m.startQuery q).1.map fun s => [s], (m.startQuery q).2)
  | .save => (.ok [m.live.state], m)
  | .restore s => (.ok [], m.restore s)
  | .executeFrom address => ((m.executeFrom address).1.map fun _ => [], (m.executeFrom address).2)
  | .execute => (m.execute.1.map fun _ => [], m.execute.2)
  | .resolve values => ((m.resolve values).1.map fun _ => [], (m.resolve values).2)
  | .outlinks s => ((m.outlinks s).1.map fun links => links.map (·.child), (m.outlinks s).2)

/-- The states that an answer hands out; a request that fails hands out none. -/
def handed : Except Error (List State) → List State
  | .ok states => states
  | .error _ => []

/-- What requests to a machine lead to: the machine that they leave, and the states saved so far. -/
inductive History (m₀ : Machine) : Machine → List State → Prop
  | begin : History m₀ m₀ []
  | ask {m : Machine} {saved : List State} (history : History m₀ m saved) (r : Request)
      (own : ∀ s ∈ r.needs, s ∈ saved) :
      History m₀ (m.answer r).2 (handed (m.answer r).1 ++ saved)

/-- The code of a machine, with any query installed. -/
def Installs (m₀ : Machine) (code : Code) : Prop :=
  ∃ query queryRegisters, code = { m₀.code with query, queryRegisters }

theorem installs_self (m : Machine) : m.Installs m.code := ⟨_, _, rfl⟩

theorem Installs.trans {m₀ m : Machine} {code : Code} (first : m₀.Installs m.code) (next : m.Installs code) :
    m₀.Installs code := by
  obtain ⟨_, _, same⟩ := first
  obtain ⟨query, registers, rfl⟩ := next
  exact ⟨query, registers, by rw [same]⟩

/-- Requests install queries, and change nothing else of the code. -/
theorem installs_answer {m₀ m : Machine} (installs : m₀.Installs m.code) (r : Request) :
    m₀.Installs (m.answer r).2.code := by
  cases r with
  | startQuery q => exact installs.trans ⟨_, _, rfl⟩
  | save | restore | executeFrom | execute | resolve | outlinks => exact installs

end Machine

namespace Contract

open Machine Exec

/-- What a request leaves: the machine and the states handed out keep the contract, and a failure is one that is
permitted. -/
structure AnswerKeeps (k : Contract) (result : Except Error (List State) × Machine) : Prop where
  holds : k.Holds result.2.live
  states : ∀ s ∈ handed result.1, k.state s
  error : ∀ e, result.1 = .error e → k.error e

variable {k : Contract} {m : Machine}

/-- A computation that keeps a contract, as an answer. -/
theorem AnswerKeeps.perform {α : Type} {good : α → Prop} {x : Code → Exec α} {states : α → List State}
    (keeps : KeepsAt k good (x m.code) m.live) (areKept : ∀ a, good a → ∀ s ∈ states a, k.state s) :
    k.AnswerKeeps ((m.perform x).1.map states, (m.perform x).2) := by
  obtain ⟨holds, isGood, permitted⟩ := keeps
  unfold Machine.perform
  match ran : x m.code m.live with
  | (.ok a, live) =>
    rw [ran] at holds isGood
    exact ⟨holds, areKept a (isGood a rfl), fun e failed => by cases failed⟩
  | (.error e, live) =>
    rw [ran] at holds permitted
    refine ⟨holds, fun s member => absurd member List.not_mem_nil, fun e' failed => ?_⟩
    cases failed
    exact permitted e rfl

/-- Every answer keeps a contract that the code of the machine suits, whatever query it has installed. -/
theorem Suits.answer_keeps (suits : ∀ code, m.Installs code → k.Suits code) (initial : k.state .initial)
    (free : ∀ values, k.values values) (holds : k.Holds m.live) {r : Request}
    (needs : ∀ s ∈ r.needs, k.state s) : k.AnswerKeeps (m.answer r) := by
  have here := suits m.code m.installs_self
  have none : ∀ {α : Type} (a : α), True → ∀ s ∈ ([] : List State), k.state s :=
    fun _ _ s member => absurd member List.not_mem_nil
  cases r with
  | startQuery q =>
    have suits := suits (m.installed q) ⟨_, _, rfl⟩
    have start : k.Holds { m.live with state := .initial } := ⟨initial, holds.features, holds.drafts⟩
    refine .perform (?_ : KeepsAt k k.state _ _) fun s isKept => List.forall_mem_singleton.2 isKept
    exact ((suits.keeps_runFrom (suits.neutral_findall _) _).bind fun _ _ => keeps_state) _ start
  | save =>
    exact ⟨holds, List.forall_mem_singleton.2 holds.state, fun e failed => by cases failed⟩
  | restore s =>
    exact ⟨here.holds_state (needs s (List.mem_singleton_self s)),
      fun s member => absurd member List.not_mem_nil, fun e failed => by cases failed⟩
  | executeFrom address =>
    exact .perform (here.keeps_runFrom (here.neutral_findall _) address _ holds) fun _ _ =>
      none () trivial
  | execute =>
    refine .perform (?_ : KeepsAt k k.features _ _) fun _ _ => none () trivial
    exact ((here.neutral_run (here.neutral_findall _)).andThen fun _ => keeps_reported) _ holds
  | resolve values =>
    exact .perform (here.neutral_resolveWith (here.neutral_findall _) (free values) _ holds) none
  | outlinks s =>
    refine .perform (here.keeps_outlinks (needs s (List.mem_singleton_self s)) _ holds) ?_
    intro links areKept child member
    obtain ⟨o, isLink, rfl⟩ := List.mem_map.1 member
    exact (areKept o isLink).1

end Contract

/-- A contract that holds at first and that the code suits holds after every history, and of all states saved
in it. -/
theorem Machine.History.keeps {k : Contract} {m₀ m : Machine} {saved : List State}
    (suits : ∀ code, m₀.Installs code → k.Suits code) (initial : k.state .initial)
    (free : ∀ values, k.values values) (start : k.Holds m₀.live) (history : m₀.History m saved) :
    m₀.Installs m.code ∧ k.Holds m.live ∧ ∀ s ∈ saved, k.state s := by
  induction history with
  | begin => exact ⟨m₀.installs_self, start, fun s member => absurd member List.not_mem_nil⟩
  | @ask m saved _ r own ih =>
    obtain ⟨installs, holds, areKept⟩ := ih
    have answered := Contract.Suits.answer_keeps
      (fun code isInstalled => suits code (installs.trans isInstalled)) initial free holds
      fun s member => areKept s (own s member)
    exact ⟨installs_answer installs r, answered.holds,
      List.forall_mem_append.2 ⟨answered.states, areKept⟩⟩

end ProofWalk
