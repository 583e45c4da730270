import ProofWalk.Machine.Key

/-!
# The interpreter

The machine with its live part: the operations that a caller performs one after the other. Each
leaves a machine behind, also when it fails.

## Main definitions

* `Machine` — code and live part
* `Machine.startQuery` — runs a query to its first call
* `Machine.outlinks` — the steps from a state
-/

namespace ProofWalk

/-- Code and the live part of running it. -/
structure Machine where
  code : Code
  live : Live

/-- How deep a nested search goes unless told otherwise. -/
def defaultFindallDepth : Nat := 20

/-- How deep nested searches may lie in each other. Nothing bounds them, as every search begins to count its
depth anew; the number is one that no search reaches in the memory of a computer. -/
def defaultNestingLimit : Nat := Nat.pow 2 62

namespace Machine

/-- A machine that has not run. -/
def new (program : Program) (relations : List Relation) : Machine :=
  { code :=
      { program, relations, query := #[], queryRegisters := 0
        findallDepth := defaultFindallDepth, nestingLimit := defaultNestingLimit }
    live := .initial }

/-- The machine with another depth for nested searches. -/
def withFindallDepth (m : Machine) (depth : Nat) : Machine :=
  { m with code := { m.code with findallDepth := depth } }

/-- Performs a computation on the live part. -/
def perform {α : Type} (m : Machine) (x : Code → Exec α) : Except Error α × Machine :=
  let (result, live) := x m.code m.live
  (result, { m with live })

/-- The code of a machine with a query installed. -/
def installed (m : Machine) (q : Query) : Code :=
  { m.code with query := q.compile.toArray, queryRegisters := q.vars.length }

/-- Installs a query and runs it to its first call; gives the start state. -/
def startQuery (m : Machine) (q : Query) : Except Error State × Machine :=
  { m with code := m.installed q, live := { m.live with state := .initial } }.perform fun code => do
    let _ ← code.runFrom code.search? code.program.size
    Exec.state

/-- Runs from an address with no features reported. -/
def executeFrom (m : Machine) (address : Nat) : Except Error FeatureMap × Machine :=
  m.perform fun code => code.runFrom code.search? address

/-- Runs on and keeps the features reported so far. -/
def execute (m : Machine) : Except Error FeatureMap × Machine :=
  m.perform fun code => do
    code.run code.search?
    Exec.reported

/-- Takes up a state. -/
def restore (m : Machine) (s : State) : Machine :=
  { m with live := { state := s, features := [], drafts := [] } }

/-- Resolves the pending call by a tuple and runs on; false if the state has failed. -/
def resolve (m : Machine) (values : List String) : Except Error Bool × Machine :=
  m.perform fun code => code.resolveWith code.search? values

/-- The steps from a state. -/
def outlinks (m : Machine) (s : State) : Except Error (List Outlink) × Machine :=
  m.perform fun code => code.outlinks s

/-- The states that the steps from a list of states lead to, one after the other. `states` are those
met so far, of which the first `next` have been gone through; goes on until there are `limit`, through
at most as many states as the first argument says. -/
def reach (limit : Nat) : Nat → Nat → Array State → Machine → Except Error (Array State) × Machine
  | 0, _, states, m => (.ok states, m)
  | fuel + 1, next, states, m =>
    match states[next]? with
    | none => (.ok states, m)
    | some s =>
      if states.size < limit then
        match m.outlinks s with
        | (.error e, m) => (.error e, m)
        | (.ok links, m) => reach limit fuel (next + 1) (states ++ (links.map (·.child)).toArray) m
      else (.ok states, m)

/-- What a search has found: the number of states visited and the solutions in reverse order. -/
structure Findings where
  visited : Nat
  solutions : List Query

mutual

/-- Searches depth first for completed states, at most `depth` steps away from a state. -/
def search (q : Query) : Nat → State → Findings → Machine → Except Error Findings × Machine
  | depth, s, found, m =>
    let visited := found.visited + 1
    if s.completed then
      (.ok { visited, solutions := m.code.fill q s :: found.solutions }, m)
    else
      match depth with
      | 0 => (.ok { found with visited }, m)
      | depth + 1 =>
        match m.outlinks s with
        | (.error e, m) => (.error e, m)
        | (.ok links, m) => searchAll q depth (links.reverse.map (·.child)) { found with visited } m
termination_by depth => (depth, 0)

/-- Searches from states in turn. -/
def searchAll (q : Query) : Nat → List State → Findings → Machine → Except Error Findings × Machine
  | _, [], found, m => (.ok found, m)
  | depth, s :: rest, found, m =>
    match search q depth s found m with
    | (.error e, m) => (.error e, m)
    | (.ok found, m) => searchAll q depth rest found m
termination_by depth states => (depth, states.length)

end

/-- Searches for the solutions of a query, at most `depth` steps away from its start. -/
def solve (q : Query) (depth : Nat) (m : Machine) : Except Error Findings × Machine :=
  match m.startQuery q with
  | (.error e, m) => (.error e, m)
  | (.ok s, m) => search q depth s { visited := 0, solutions := [] } m

end Machine

end ProofWalk
