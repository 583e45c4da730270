import ProofWalk.Scalar

/-!
# Learning graphs

The graph of a grounded line in a compact form. The edges are stored in the order of their sources,
those of one source in the order of the line, so the edges of a node are a range of edge numbers.
The labels of all edges are stored one behind the other, so the labels of an edge are a range too.
The features of the graph are numbered from zero in the order in which they are met.

## Main definitions

* `LearningEdge`, `LearningGraph`
* `LearningGraph.ofEdges` — the graph of a list of edges
* `LearningGraph.edgesOf` — the range of a node
* `LearningGraph.target`, `LearningGraph.labels` — what is known of an edge
-/

namespace ProofWalk

/-- An edge: where it leads to and its labels, features by their number with weights. -/
structure LearningEdge where
  target : Nat
  labels : List (Nat × Float)

/-- A graph with nodes numbered from one. The edges of node `u` are those numbered from `starts[u]`
up to but not including `starts[u + 1]`, and the labels of edge `e` are those at `labelStarts[e]` up to
but not including `labelStarts[e + 1]`. -/
structure LearningGraph where
  nodeCount : Nat
  starts : Array Nat
  targets : Array Nat
  labelStarts : Array Nat
  labelling : Array (Nat × Float)
  features : Array String
  dependencies : Nat

namespace LearningGraph

/-- The number of edges from each source below `bound`. -/
def countSources (bound : Nat) (edges : List (Nat × LearningEdge)) : Array Nat :=
  edges.foldl (fun counts e => counts.modify e.1 (· + 1)) (Array.replicate bound 0)

/-- The sums of all numbers before each position, and the sum of all. -/
def startsOf (counts : Array Nat) : Array Nat :=
  (counts.foldl (fun (starts, total) n => (starts.push (total + n), total + n)) (#[0], 0)).1

/-- The graph of edges with their sources. -/
def ofEdges (nodeCount : Nat) (edges : List (Nat × LearningEdge)) (features : Array String)
    (dependencies : Nat) : LearningGraph :=
  let sorted := (edges.mergeSort fun a b => a.1 ≤ b.1).map (·.2)
  { nodeCount, features, dependencies
    starts := startsOf (countSources (nodeCount + 1) edges)
    targets := (sorted.map (·.target)).toArray
    labelStarts := startsOf (sorted.map (·.labels.length)).toArray
    labelling := (sorted.flatMap (·.labels)).toArray }

/-- The number of edges. -/
def edgeCount (g : LearningGraph) : Nat := g.targets.size

/-- The number of features. -/
def featureCount (g : LearningGraph) : Nat := g.features.size

/-- The nodes in order. -/
def nodes (g : LearningGraph) : List Nat := List.range' 1 g.nodeCount

/-- The numbers of the edges of a node. -/
def edgesOf (g : LearningGraph) (u : Nat) : List Nat :=
  if u = 0 then []
  else
    match g.starts[u]?, g.starts[u + 1]? with
    | some a, some b => List.range' a (b - a)
    | _, _ => []

/-- The number of edges of a node. -/
def degree (g : LearningGraph) (u : Nat) : Nat := (g.edgesOf u).length

/-- The node that an edge leads to. -/
def target (g : LearningGraph) (e : Nat) : Nat := (g.targets[e]?).getD 0

/-- The labels of an edge. -/
def labels (g : LearningGraph) (e : Nat) : List (Nat × Float) :=
  match g.labelStarts[e]?, g.labelStarts[e + 1]? with
  | some a, some b => (g.labelling.extract a b).toList
  | _, _ => []

/-- The features with their numbers. -/
def numberedFeatures (g : LearningGraph) : List (Nat × String) :=
  (List.range g.features.size).zip g.features.toList

end LearningGraph

end ProofWalk
