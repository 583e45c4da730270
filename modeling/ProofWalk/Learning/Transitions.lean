import ProofWalk.Error
import ProofWalk.Learning.Graph
import ProofWalk.Parameters.Basic
import ProofWalk.Squash

/-!
# Transitions

The probability of every edge of a learning graph under given parameters, and how it changes with
the weight of each feature. The score of an edge is the sum of its features' weights times the
labels' weights, and its probability is its squashed score divided by the total of its node. A node
none of whose edges weighs anything keeps whatever reaches it. If the total of a node is zero but
one of its edges weighs something, there are no probabilities.

## Main definitions

* `SparseRow` — numbers by feature, for few features
* `Transitions` — probabilities with their slopes
* `Transitions.load`
-/

namespace ProofWalk

/-- Numbers by feature, for the features that have one. -/
abbrev SparseRow (K : Type) := List (Nat × K)

namespace SparseRow

variable {K : Type} [Scalar K]

/-- A row with an amount added to the number of a feature; a new feature comes last. -/
def add (k : Nat) (x : K) : SparseRow K → SparseRow K
  | [] => [(k, 0 + x)]
  | (j, y) :: rest => if j = k then (j, y + x) :: rest else (j, y) :: add k x rest

/-- A row with an amount added to the number of a feature that it has. -/
def addPresent (k : Nat) (x : K) : SparseRow K → SparseRow K
  | [] => []
  | (j, y) :: rest => if j = k then (j, y + x) :: rest else (j, y) :: addPresent k x rest

end SparseRow

/-- The probability of every edge, its slope by feature, and the nodes that keep what reaches
them. -/
structure Transitions (K : Type) where
  probability : Array K
  slope : Array (SparseRow K)
  absorbing : Array Bool

namespace Transitions

variable {K : Type} [Scalar K]

/-- An edge with its weight before scaling, and the slope of that weight. -/
structure Weighed (K : Type) where
  labels : List (Nat × Float)
  weight : K
  steepness : K

/-- Weighs an edge. -/
def weigh (squash : Squash) (weights : Array K) (labels : List (Nat × Float)) : Weighed K :=
  let score := Scalar.sum (labels.map fun (k, w) => (weights[k]?).getD 0 * Scalar.ofFloat w)
  { labels, weight := squash.apply score, steepness := squash.derivative score }

/-- How the total weight of edges changes with each feature. -/
def totalSlope (edges : List (Weighed K)) : SparseRow K :=
  edges.foldl (fun row e =>
    e.labels.foldl (fun row (k, w) => row.add k (e.steepness * Scalar.ofFloat w)) row) []

/-- The probability of an edge of a node and its slope. -/
def share (total : K) (slope : SparseRow K) (e : Weighed K) : K × SparseRow K :=
  let m := e.weight / total
  let row : SparseRow K := slope.map fun (k, d) => (k, -m * d / total)
  let row := e.labels.foldl (fun row (k, w) =>
    SparseRow.addPresent k (e.steepness * Scalar.ofFloat w / total) row) row
  (m, row.filter fun (_, d) => d != 0)

/-- The probabilities of the edges of a node with their slopes, and whether it keeps what reaches
it. -/
def ofNode (squash : Squash) (weights : Array K) (g : LearningGraph) (u : Nat) :
    Except Error (List (K × SparseRow K) × Bool) :=
  let edges := (g.edgesOf u).map fun e => weigh squash weights (g.labels e)
  let total := Scalar.sum (edges.map (·.weight))
  if total == 0 then
    if edges.any fun e => e.weight != 0 then .error (.degenerateNode u)
    else .ok (edges.map fun _ => (0, []), true)
  else .ok (edges.map (share total (totalSlope edges)), false)

/-- The transitions with those of one more node. -/
def addNode (t : Transitions K) (shares : List (K × SparseRow K)) (absorbs : Bool) : Transitions K :=
  { probability := t.probability ++ (shares.map (·.1)).toArray
    slope := t.slope ++ (shares.map (·.2)).toArray
    absorbing := t.absorbing.push absorbs }

/-- The transitions of a graph; a feature without a weight counts with the default of the squashing
function. -/
def load (squash : Squash) (p : Parameters K) (g : LearningGraph) : Except Error (Transitions K) :=
  let weights := g.features.map fun name => p.getD name squash.default
  g.nodes.foldlM (fun t u => do
    let (shares, absorbs) ← ofNode squash weights g u
    return t.addNode shares absorbs) { probability := #[], slope := #[], absorbing := #[false] }

/-- The probability of an edge. -/
def at_ (t : Transitions K) (e : Nat) : K := (t.probability[e]?).getD 0

/-- The slope of the probability of an edge. -/
def slopeAt (t : Transitions K) (e : Nat) : SparseRow K := (t.slope[e]?).getD []

/-- Whether a node keeps what reaches it; one outside the graph does. -/
def isAbsorbing (t : Transitions K) (u : Nat) : Bool := (t.absorbing[u]?).getD true

end Transitions

end ProofWalk
