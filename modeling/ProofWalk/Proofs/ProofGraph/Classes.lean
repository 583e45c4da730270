import ProofWalk.ProofGraph.Basic
import ProofWalk.Proofs.Machine.Merging

/-!
# Classes of a proof graph

A proof graph keeps one state of every class of states with equal keys, the first that it met, and
goes on from this one whenever another state of the class turns up. Nothing is lost by it: states
with equal keys have the same answer and the same steps, to states with equal keys again, so runs
that go on from representatives show exactly what the runs of the machine show.

## Main definitions

* `ProofGraph.Merges` — the classes of a graph hold states of a run, each under its own key

## Main results

* `ProofGraph.Merges.representative` — classes are kept when a state is represented
* `Machine.key_bisimulation` — states with equal keys are alike, and may stand for each other
-/

namespace ProofWalk

namespace ProofGraph

variable {g : ProofGraph} {m : Machine} {start : State}

/-- The classes of a graph hold states that runs arrive at, each under its own key. -/
structure Merges (g : ProofGraph) (m : Machine) (start : State) : Prop where
  code : g.code = m.code
  classes : ∀ key r, g.classes[key]? = some r → m.Reaches start r ∧ m.code.key r = key

/-- A new graph holds the start state. -/
theorem merges_new {kind : GraphKind} {labelled : LabelledExample} {program : Program}
    {relations : List Relation} {features : FeatureTable}
    (new : ProofGraph.new kind labelled program relations features = .ok g)
    (started : (Machine.new program relations).startQuery labelled.query = (.ok start, m)) :
    g.Merges m start := by
  unfold ProofGraph.new at new
  rw [started] at new
  cases new
  refine ⟨rfl, fun key r found => ?_⟩
  rw [Std.HashMap.getElem?_insert] at found
  split at found
  · rename_i same
    cases found
    exact ⟨.start, eq_of_beq same⟩
  · rw [Std.HashMap.getElem?_empty] at found
    cases found

/-- A representative has the key of the state that it stands for, and classes are kept. -/
theorem Merges.representative (merges : g.Merges m start) {s : State} (reaches : m.Reaches start s) :
    (m.Reaches start (g.representative s).1 ∧ m.code.key (g.representative s).1 = m.code.key s) ∧
      (g.representative s).2.Merges m start := by
  unfold ProofGraph.representative
  simp only
  split
  · rename_i r found
    rw [merges.code] at found
    exact ⟨merges.classes _ r found, merges⟩
  · refine ⟨⟨reaches, rfl⟩, merges.code, fun key r found => ?_⟩
    rw [Std.HashMap.getElem?_insert] at found
    split at found
    · rename_i same
      cases found
      exact ⟨reaches, merges.code ▸ eq_of_beq same⟩
    · exact merges.classes key r found

end ProofGraph

/-- States of a run with equal keys are alike: both are completed or neither, they bind the variables
of the query alike, and their steps fail with the same error or carry, one by one, the same features
to states with equal keys. So whichever states represent the classes, those of a proof graph for one,
the runs that go on from representatives show what the runs of the machine show. -/
theorem Machine.key_bisimulation {m : Machine} {rules : List Rule}
    (compiled : compileRules rules = .ok m.code.program)
    (builtIn : ∀ relation ∈ m.code.relations, relation.isBuiltIn)
    (fits : ∀ rule ∈ rules, ∀ g ∈ rule.rhs, g.arity < Text.wordLimit) {q : Query}
    (fitsQuery : ∀ g ∈ q.goals, g.arity < Text.wordLimit) {start : State} {m' : Machine}
    (started : m.startQuery q = (.ok start, m')) :
    (∀ s s', m'.Reaches start s → m'.Reaches start s' → m'.code.key s = m'.code.key s' →
      s.completed = s'.completed ∧ m'.code.bindings s = m'.code.bindings s' ∧
        m'.labelledSteps s = m'.labelledSteps s') ∧
    (∀ rep : State → State, (∀ s, m'.Reaches start s →
        m'.Reaches start (rep s) ∧ m'.code.key (rep s) = m'.code.key s) →
      ∀ n s, m'.Reaches start s → m'.outcomes rep n (rep s) = m'.outcomes id n s) ∧
    ∀ g : ProofGraph, g.Merges m' start → ∀ n s, m'.Reaches start s →
      m'.outcomes (fun s => (g.representative s).1) n (g.representative s).1 =
        m'.outcomes id n s := by
  have obeys := m.obeys_ofRules compiled (fun relation member =>
    Relation.fits (builtIn relation member)) q
  obtain ⟨code, first⟩ := Reached.start m fitsQuery started
  rw [← code] at obeys
  have count : m'.code.queryRegisters = q.vars.length := by
    rw [code]
    rfl
  have fitsClauses : ∀ clause ∈ numbered rules, ∀ g ∈ clause.1.rhs, g.arity < Text.wordLimit :=
    fun clause member => fits clause.1 (fst_mem_of_mem_numbered member)
  have alike : ∀ s s', m'.Reaches start s → m'.Reaches start s' →
      m'.code.key s = m'.code.key s' → s.completed = s'.completed ∧
        m'.code.bindings s = m'.code.bindings s' ∧ m'.labelledSteps s = m'.labelledSteps s' := by
    intro s s' reaches reaches' same
    obtain ⟨r, silent, reached⟩ := reaches.reached obeys fitsClauses first
    obtain ⟨r', silent', reached'⟩ := reaches'.reached obeys fitsClauses first
    exact reached.alike reached' obeys fitsClauses count same
  have represented : ∀ rep : State → State, (∀ s, m'.Reaches start s →
      m'.Reaches start (rep s) ∧ m'.code.key (rep s) = m'.code.key s) →
        ∀ n s, m'.Reaches start s → m'.outcomes rep n (rep s) = m'.outcomes id n s := by
    intro rep represents n s reaches
    obtain ⟨reachesRep, same⟩ := represents s reaches
    exact Machine.outcomes_eq represents alike n reachesRep reaches same
  exact ⟨alike, represented, fun g merges => represented _ fun s reaches =>
    (merges.representative reaches).1⟩

/-- Two rules of the same form. -/
def twoWays : List Rule :=
  let lead : Rule :=
    ⟨⟨"reach", [.var ⟨"X", 0⟩]⟩, [⟨"step", [.var ⟨"X", 0⟩, .var ⟨"Y", 1⟩]⟩], []⟩
  [lead, lead]

/-- What is reached. -/
def askReach : Query := ⟨⟨"reach", [.var ⟨"Who", 0⟩]⟩, []⟩

/-- The machine with the query installed, and its start state. -/
def askedReach : Except Error State × Machine :=
  (Machine.new (((compileRules twoWays).toOption).getD .empty) []).startQuery askReach

/-- The steps of the start state. -/
def reachSteps : List Outlink :=
  match askedReach.1 with
  | .ok start => ((askedReach.2.outlinks start).1.toOption).getD []
  | .error _ => []

/-- Both rules lead to states with equal keys, though to different ones. -/
theorem key_bisimulation_twoWays :
    ∃ start m', askedReach = (.ok start, m') ∧ (m'.outlinks start).1 = .ok reachSteps ∧
      reachSteps.length = 2 ∧ (reachSteps.map (·.child)).Nodup ∧
      ∀ l ∈ reachSteps, ∀ l' ∈ reachSteps,
        m'.labelledSteps l.child = m'.labelledSteps l'.child := by
  obtain ⟨start, m', started, -⟩ := Machine.startQuery_represents
    (Machine.new (((compileRules twoWays).toOption).getD .empty) []) askReach
  have two : reachSteps.length = 2 := by decide +kernel
  have isSteps : reachSteps = ((m'.outlinks start).1.toOption).getD [] := by
    unfold reachSteps askedReach
    rw [started]
  have linked : (m'.outlinks start).1 = .ok reachSteps := by
    cases found : (m'.outlinks start).1 with
    | error e =>
      rw [found] at isSteps
      rw [isSteps] at two
      cases two
    | ok links =>
      rw [found] at isSteps
      rw [isSteps]
      rfl
  have keys : ∀ l ∈ reachSteps, ∀ l' ∈ reachSteps,
      askedReach.2.code.key l.child = askedReach.2.code.key l'.child := by decide +kernel
  have alike := (@Machine.key_bisimulation _ twoWays rfl (fun _ member => by cases member)
    (by decide) askReach (by decide) start m' started).1
  refine ⟨start, m', started, linked, two, by decide +kernel, fun l member l' member' => ?_⟩
  have same := keys l member l' member'
  rw [askedReach, started] at same
  exact (alike _ _ (.step .start linked member) (.step .start linked member') same).2.2

end ProofWalk
