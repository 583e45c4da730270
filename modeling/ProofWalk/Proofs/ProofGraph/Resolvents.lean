import ProofWalk.Proofs.ProofGraph.Explored

/-!
# Nodes and resolvents

A key tells a resolvent up to the names of variables, and it tells which variables of the query have no
register. A variable gets its register when the first goal is built that mentions it, so a run that comes
back to the goals of an earlier state may have a register for a variable that had none. Such states stand
for one resolvent, yet a proof graph has a node for each of them.

## Main definitions

* `State.holdsNone` — a register that holds nothing
* `Machine.firstRun`, `Theory.firstDerivation` — always to take the first step

## Main results

* `Machine.key_eq_iff_renames` — when states of a run have equal keys, and when their nodes are one
* `Machine.key_ne_comeAgain` — two states of one resolvent with different keys
-/

namespace ProofWalk

/-- A register holds nothing. -/
def State.holdsNone (s : State) (i : Nat) : Prop := s.registers[i]? = some none

/-- The same variables of the query have no register. -/
theorem Reached.silent_eq_iff {code : Code} {q : Query} {s s' : State} {r r' : Resolvent}
    {silent silent' : List Variable} (reached : Reached code q s r silent)
    (reached' : Reached code q s' r' silent') :
    silent = silent' ↔ ∀ i < q.vars.length, s.holdsNone i ↔ s'.holdsNone i := by
  constructor
  · rintro rfl i inside
    have isVar := List.getElem?_eq_getElem inside
    exact (reached.mem_silent_iff isVar).symm.trans (reached'.mem_silent_iff isVar)
  · intro same
    rw [reached.silent_eq, reached'.silent_eq]
    refine List.filter_congr fun v known => decide_eq_decide.2 ?_
    obtain ⟨i, isVar⟩ := List.mem_iff_getElem?.1 known
    have inside := (List.getElem?_eq_some_iff.1 isVar).1
    exact (reached.mem_silent_iff isVar).trans ((same i inside).trans (reached'.mem_silent_iff isVar).symm)

/-- Every state that runs of a query arrive at stands for a resolvent. Two of them have equal keys exactly if
their resolvents are the same but for the names of variables and the same variables of the query have no
register. So two nodes of a proof graph that stand for one resolvent have registers for different variables
of the query. -/
theorem Machine.key_eq_iff_renames {m : Machine} {rules : List Rule}
    (compiled : compileRules rules = .ok m.code.program)
    (builtIn : ∀ relation ∈ m.code.relations, relation.isBuiltIn)
    (fits : ∀ rule ∈ rules, ∀ g ∈ rule.rhs, g.arity < Text.wordLimit) {q : Query}
    (fitsQuery : ∀ g ∈ q.goals, g.arity < Text.wordLimit) {start : State} {m' : Machine}
    (started : m.startQuery q = (.ok start, m')) :
    (∀ s, m'.Reaches start s → ∃ r silent, Reached m'.code q s r silent) ∧
    (∀ s s' r r' silent silent', Reached m'.code q s r silent → Reached m'.code q s' r' silent' →
      (m'.code.key s = m'.code.key s' ↔
        r.Renames r' ∧ ∀ i < q.vars.length, s.holdsNone i ↔ s'.holdsNone i)) ∧
    ∀ g : ProofGraph, g.Coherent → g.Merges m' start → ∀ u v s s',
      g.store.state? u = some s → g.store.state? v = some s' →
      ∀ r r' silent silent', Reached m'.code q s r silent → Reached m'.code q s' r' silent' →
        r.Renames r' → (∀ i < q.vars.length, s.holdsNone i ↔ s'.holdsNone i) → u = v := by
  have obeys := m.obeys_ofRules compiled (fun relation member =>
    Relation.fits (builtIn relation member)) q
  obtain ⟨code, first⟩ := Reached.start m fitsQuery started
  rw [← code] at obeys
  have count : m'.code.queryRegisters = q.vars.length := by
    rw [code]
    rfl
  have keys : ∀ s s' r r' silent silent', Reached m'.code q s r silent → Reached m'.code q s' r' silent' →
      (m'.code.key s = m'.code.key s' ↔
        r.Renames r' ∧ ∀ i < q.vars.length, s.holdsNone i ↔ s'.holdsNone i) := by
    intro s s' r r' silent silent' reached reached'
    rw [reached.key_eq_iff reached' count, reached.silent_eq_iff reached']
  refine ⟨fun s reaches => reaches.reached obeys (fun clause member =>
    fits clause.1 (fst_mem_of_mem_numbered member)) first, keys, ?_⟩
  intro g coherent merges u v s s' known known' r r' silent silent' reached reached' renames registers
  refine coherent.eq_of_key known known' ?_
  rw [merges.code]
  exact (keys s s' r r' silent silent' reached reached').2 ⟨renames, registers⟩

/-! ### Coming back -/

/-- The state behind a number of first steps. -/
def Machine.firstRun (m : Machine) : Nat → State → Option State
  | 0, s => some s
  | n + 1, s =>
    match (m.outlinks s).1 with
    | .ok (link :: _) => firstRun m n link.child
    | _ => none

/-- The resolvent behind a number of first moves. -/
def Theory.firstDerivation (t : Theory) (root : Root) : Nat → Resolvent → Option Resolvent
  | 0, r => some r
  | n + 1, r =>
    match t.moves root r with
    | .ok (move :: _) => firstDerivation t root n move.child
    | _ => none

theorem Machine.Reaches.firstRun {m : Machine} {start s s' : State} {n : Nat}
    (reaches : m.Reaches start s) (run : m.firstRun n s = some s') : m.Reaches start s' := by
  induction n generalizing s with
  | zero =>
    cases run
    exact reaches
  | succ n ih =>
    rw [Machine.firstRun] at run
    split at run
    · rename_i link links linked
      exact ih (reaches.step linked List.mem_cons_self) run
    · cases run

/-- First steps lead to states that stand for what first moves lead to. -/
theorem Reached.firstRun {m : Machine} {q : Query} {t : Theory} {s s' : State} {r : Resolvent}
    {silent : List Variable} {n : Nat} (reached : Reached m.code q s r silent) (obeys : m.code.Obeys t)
    (fits : ∀ clause ∈ t.clauses, ∀ g ∈ clause.1.rhs, g.arity < Text.wordLimit)
    (run : m.firstRun n s = some s') :
    ∃ r' silent', t.firstDerivation (.ofQuery q) n r = some r' ∧ Reached m.code q s' r' silent' := by
  induction n generalizing s r silent with
  | zero =>
    cases run
    exact ⟨r, silent, rfl, reached⟩
  | succ n ih =>
    rw [Machine.firstRun] at run
    split at run
    · rename_i link links linked
      obtain ⟨moves, found, follow⟩ := reached.represents.links_follow obeys linked
      cases follow with
      | cons first _ =>
        rw [Theory.firstDerivation, found]
        exact ih (reached.step fits found List.mem_cons_self first) run
    · cases run

/-- A rule that calls itself with what it has been called with. -/
def comeAgain : List Rule :=
  [⟨⟨"a", []⟩, [], []⟩,
    ⟨⟨"b", [.var ⟨"X", 0⟩]⟩, [⟨"a", []⟩, ⟨"b", [.var ⟨"X", 0⟩]⟩], []⟩]

/-- The body of the rule as a query. -/
def askAgain : Query := ⟨⟨"a", []⟩, [⟨"b", [.var ⟨"X", 0⟩]⟩]⟩

/-- The machine with the query installed, and its start state. -/
def askedAgain : Except Error State × Machine :=
  (Machine.new (((compileRules comeAgain).toOption).getD .empty) []).startQuery askAgain

/-- After two steps the goals are those of the query again. The variable of the query has a register now, and
the key of the state is not that of the start. -/
theorem Machine.key_ne_comeAgain :
    ∃ start m', askedAgain = (.ok start, m') ∧ ∃ s, m'.Reaches start s ∧
      (∃ r silent r' silent', Reached m'.code askAgain start r silent ∧
        Reached m'.code askAgain s r' silent' ∧ r.Renames r') ∧
      m'.code.key start ≠ m'.code.key s := by
  set m := Machine.new (((compileRules comeAgain).toOption).getD .empty) [] with isMachine
  obtain ⟨start, m', started, code, floor, represents⟩ := m.startQuery_represents askAgain
  have compiled : compileRules comeAgain = .ok m.code.program := rfl
  have obeys := Machine.obeys_ofRules compiled (fun _ member => by cases member) askAgain
  rw [← code] at obeys represents
  have fits : ∀ rule ∈ comeAgain, ∀ g ∈ rule.rhs, g.arity < Text.wordLimit := by decide
  have reached : Reached m'.code askAgain start (.ofQuery askAgain) _ :=
    ⟨represents, floor, .start askAgain, by decide⟩
  -- the machine is run, and so is the derivation
  have differ : (askedAgain.1.toOption.bind fun start => (askedAgain.2.firstRun 2 start).map fun s =>
      decide (askedAgain.2.code.key start = askedAgain.2.code.key s)) = some false := by decide +kernel
  have again : ((Theory.ofRules comeAgain [] defaultFindallDepth defaultNestingLimit).firstDerivation
      (.ofQuery askAgain) 2 (.ofQuery askAgain)).map (fun r => (r.goals, r.answer)) =
        some (askAgain.goals, askAgain.vars.map .var) := by decide +kernel
  rw [askedAgain, ← isMachine, started] at differ
  obtain ⟨s, run, other⟩ := Option.map_eq_some_iff.1 differ
  obtain ⟨r, silent, derived, reached'⟩ := reached.firstRun obeys
    (fun clause member => fits clause.1 (fst_mem_of_mem_numbered member)) run
  obtain ⟨r', derived', same⟩ := Option.map_eq_some_iff.1 again
  obtain rfl : r = r' := Option.some.inj (derived.symm.trans derived')
  obtain ⟨goals, answer⟩ := Prod.mk.inj same
  refine ⟨start, m', started, s, Machine.Reaches.start.firstRun run, ⟨_, _, r, silent, reached, reached', ?_⟩,
    of_decide_eq_false other⟩
  refine ⟨id, Function.injective_id, ?_, ?_⟩
  · exact (List.map_id'' Goal.mapVariables_var _).trans goals.symm
  · exact (List.map_id'' Term.mapVariable_id _).trans answer.symm

end ProofWalk
