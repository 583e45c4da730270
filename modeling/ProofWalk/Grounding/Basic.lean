import ProofWalk.LabelledExample
import ProofWalk.Pipeline.Basic
import ProofWalk.Prover.Basic

/-!
# Grounding

To ground an example is to prove its query and to find its labels among the completed nodes of the
proof graph. The grounded line holds the query, the nodes of the labels and the graph; it is what the
learner reads. The features of all lines of a run have their names in one table, which is written
beside the lines.

## Main definitions

* `GroundingStatistics` — what a run counts
* `GroundedExample`, `GroundedExample.line`
* `Grounder`, `GroundingState`
* `Grounder.ground`, `Grounder.groundToLine`, `Grounder.groundFile`
-/

namespace ProofWalk

/-! ### Statistics -/

/-- The counts of a grounding run. `worst` is the lowest share of labels found in an example, with
its query; the first of several that are equal. -/
structure GroundingStatistics where
  examples : Nat
  totalPos : Nat
  totalNeg : Nat
  coveredPos : Nat
  coveredNeg : Nat
  worst : Option (Float × String)
  withoutLabels : Nat
  emptyGraphs : Nat
  written : Nat

namespace GroundingStatistics

/-- Nothing counted. -/
def zero : GroundingStatistics :=
  { examples := 0, totalPos := 0, totalNeg := 0, coveredPos := 0, coveredNeg := 0, worst := none
    withoutLabels := 0, emptyGraphs := 0, written := 0 }

/-- Counts an example with the labels that were found. -/
def add (s : GroundingStatistics) (e : LabelledExample) (coveredPos coveredNeg : Nat) :
    GroundingStatistics :=
  let worst :=
    if e.labelCount = 0 then s.worst
    else
      let share := Float.ofNat (coveredPos + coveredNeg) / Float.ofNat e.labelCount
      match s.worst with
      | none => some (share, e.query.text)
      | some (least, query) => if share < least then some (share, e.query.text) else some (least, query)
  { s with
    examples := s.examples + 1
    totalPos := s.totalPos + e.pos.length
    totalNeg := s.totalNeg + e.neg.length
    coveredPos := s.coveredPos + coveredPos
    coveredNeg := s.coveredNeg + coveredNeg
    worst }

/-- Counts an example none of whose labels were found. -/
def addWithoutLabels (s : GroundingStatistics) : GroundingStatistics :=
  { s with withoutLabels := s.withoutLabels + 1 }

/-- Counts an example whose graph is empty. -/
def addEmptyGraph (s : GroundingStatistics) : GroundingStatistics :=
  { s with emptyGraphs := s.emptyGraphs + 1 }

/-- Counts an example that was written. -/
def addWritten (s : GroundingStatistics) : GroundingStatistics :=
  { s with written := s.written + 1 }

end GroundingStatistics

/-! ### Grounding -/

/-- A proof graph with the nodes of the labels of its example. -/
structure GroundedExample where
  graph : ProofGraph
  pos : List Nat
  neg : List Nat

namespace GroundedExample

/-- The example that was grounded. -/
def labelled (g : GroundedExample) : LabelledExample := g.graph.labelled

/-- A walk over the graph starts at the start node. -/
def seed (_ : GroundedExample) : List (Nat × Float) := [(1, 1)]

/-- Nodes separated by commas. -/
def nodesText (nodes : List Nat) : String :=
  ",".intercalate (nodes.map GraphStore.natText)

/-- The grounded line: the query, the nodes of the labels and the graph. -/
def line (g : GroundedExample) : String :=
  "\t".intercalate [g.labelled.query.text, nodesText g.pos, nodesText g.neg, g.graph.line false]

end GroundedExample

/-- What grounds examples: a program with its relations, whether examples without labels are kept,
and the file that lists the nodes of the graphs, if there is to be one. -/
structure Grounder where
  program : Program
  relations : List Relation
  includeUnlabelled : Bool
  nodesFile : Option String := none

/-- What the tasks of a grounding run share: the table of features, the statistics, and the lines of
the node lists in reverse order. -/
structure GroundingState where
  features : FeatureTable
  statistics : GroundingStatistics
  nodeLines : List String

namespace GroundingState

/-- The state in front of a run. -/
def new (features : FeatureTable) : GroundingState :=
  { features, statistics := .zero, nodeLines := [] }

end GroundingState

namespace Grounder

/-- The nodes among scored ones that complete the proof with a solution among labels. -/
def labelNodes (g : ProofGraph) (nodes : List Nat) (labels : List String) : List Nat :=
  nodes.filter fun u =>
    match g.store.state? u with
    | some s => s.completed && labels.contains (g.fill s).text
    | none => false

/-- Grounds an example. -/
def ground {K : Type} [Scalar K] (r : Grounder) (p : Prover K) (features : FeatureTable)
    (e : LabelledExample) : Except Error GroundedExample × FeatureTable :=
  match e.checkLabels with
  | .error err => (.error err, features)
  | .ok () =>
    match p.makeGraph e r.program r.relations features with
    | .error err => (.error err, features)
    | .ok g =>
      let (scores, g) := p.proveOn g
      match scores with
      | .error err => (.error err, g.features)
      | .ok scores =>
        let nodes := scores.toList.map (·.1)
        (.ok {
          graph := g
          pos := labelNodes g nodes (e.pos.map (·.text))
          neg := labelNodes g nodes (e.neg.map (·.text)) }, g.features)

/-- The lines that list the nodes of a graph: the number of the example, the node and what it stands
for. -/
def nodeList (id : Nat) (g : ProofGraph) : List String :=
  g.store.nodes.filterMap fun u =>
    (g.store.state? u).map fun s =>
      let description := g.describeState s
      s!"{id}\t{u}\t{description}\n"

/-- Grounds an example and gives its line. An example with an empty graph has none, and one without
labelled nodes only if such examples are kept. -/
def groundToLine {K : Type} [Scalar K] (r : Grounder) (p : Prover K) (id : Nat)
    (e : LabelledExample) (s : GroundingState) : Except Error (Option String) × GroundingState :=
  match r.ground p s.features e with
  | (.error err, features) => (.error err, { s with features })
  | (.ok g, features) =>
    let statistics :=
      s.statistics.add e (min e.pos.length g.pos.length) (min e.neg.length g.neg.length)
    let s := { s with features, statistics }
    if g.graph.store.edgeCount = 0 then (.ok none, { s with statistics := s.statistics.addEmptyGraph })
    else
      let unlabelled := g.pos.isEmpty && g.neg.isEmpty
      let s := if unlabelled then { s with statistics := s.statistics.addWithoutLabels } else s
      if unlabelled && !r.includeUnlabelled then (.ok none, s)
      else
        let nodeLines :=
          if r.nodesFile.isSome then (nodeList id g.graph).reverse ++ s.nodeLines else s.nodeLines
        (.ok (some g.line), { s with nodeLines, statistics := s.statistics.addWritten })

/-- The work on a line of examples. -/
def work {m : Type → Type} [Monad m] (r : Grounder) (p : Prover Float) :
    Pipeline.Work m String String GroundingState := fun id line s =>
  match LabelledExample.parse? line id with
  | .error e => pure (.error e, s)
  | .ok e => pure (r.groundToLine p id e s)

/-- The name of the table of features that belongs to a file of grounded lines. -/
def featuresFile (grounded : String) : String := grounded ++ ".features"

/-- Makes the file that lists the nodes, if there is to be one. -/
def openNodesFile {m : Type → Type} [Monad m] [Files m] (r : Grounder) : ExceptT Error m Unit := do
  match r.nodesFile with
  | none => pure ()
  | some path => if !(← Files.write (m := m) path "") then throw (.groundFile path)

/-- Writes the node lists of a run. -/
def saveNodes {m : Type → Type} [Monad m] [Files m] (r : Grounder) (s : GroundingState) : m Unit := do
  match r.nodesFile with
  | none => pure ()
  | some path => discard <| Files.write path (String.join s.nodeLines.reverse)

/-- Grounds all examples of a file, writes their lines to another and the table of features beside
it. -/
def groundFile {m : Type → Type} [Monad m] [Files m] (r : Grounder) (p : Prover Float)
    (pipeline : Pipeline) (data grounded : String) :
    ExceptT Error m (GroundingStatistics × TaskCounts) := do
  let lines ← Pipeline.openFiles (m := m) data grounded
  let (result, s, outputs) ←
    (pipeline.run (r.work p) Pipeline.gather (.new .empty) [] lines : m _)
  let _ ← Files.write (m := m) grounded (String.join (outputs.reverse.map (· ++ "\n")))
  r.saveNodes (m := m) s
  match result with
  | .error e => throw e
  | .ok counts =>
    s.features.save (featuresFile grounded)
    return (s.statistics, counts)

end Grounder

end ProofWalk
