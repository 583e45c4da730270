import ProofWalk.Decimal.Layout
import ProofWalk.FeatureTable
import ProofWalk.Machine.State
import Std.Data.HashMap

/-!
# Graph stores

A store numbers states from one in the order in which they are met and keeps the labelled edges of
each. There are two: a dense one over arrays, and a sparse one over maps. They answer every
operation alike.

In the written form the numbers of nodes, edges and label dependencies come first. A label
dependency is a pair of an edge and a feature that some edge of the same node carries. Each edge is
`source->target:labels`, and a label is a feature number, with `@weight` unless the weight is one.
With the feature names inline the features are numbered anew within the line and their names are
listed in front of the edges.

## Main definitions

* `Edge`, `DenseStore`, `SparseStore`, `GraphStore`
* `GraphStore.nodeId`, `GraphStore.setEdges`, `GraphStore.edges`
* `GraphStore.line` — the written form
-/

namespace ProofWalk

-- sums of numbers are those of the core library
attribute [local instance (2000)] Zero.ofOfNat0

/-- An edge to a node, with feature numbers and weights. -/
structure Edge where
  target : Nat
  labels : List (Nat × Float)

/-- A store over arrays: node `u` is at index `u - 1`. -/
structure DenseStore where
  states : Array State
  index : Std.HashMap State Nat
  edges : Array (List Edge)
  edgeCount : Nat

namespace DenseStore

/-- The store without nodes. -/
def empty : DenseStore := { states := #[], index := ∅, edges := #[], edgeCount := 0 }

/-- The node of a state, a new one if it has none. -/
def nodeId (g : DenseStore) (s : State) : Nat × DenseStore :=
  match g.index[s]? with
  | some u => (u, g)
  | none =>
    let u := g.states.size + 1
    (u, { g with
      states := g.states.push s, index := g.index.insert s u, edges := g.edges.push [] })

/-- The state of a node. -/
def state? (g : DenseStore) (u : Nat) : Option State :=
  if u = 0 then none else g.states[u - 1]?

/-- The edges of a node. -/
def edgesOf (g : DenseStore) (u : Nat) : List Edge :=
  if u = 0 then [] else (g.edges[u - 1]?).getD []

/-- The store with the edges of a node replaced; an unknown node changes nothing. -/
def setEdges (g : DenseStore) (u : Nat) (edges : List Edge) : DenseStore :=
  if 0 < u ∧ u ≤ g.edges.size then
    { g with
      edges := g.edges.setIfInBounds (u - 1) edges
      edgeCount := g.edgeCount - (g.edgesOf u).length + edges.length }
  else g

end DenseStore

/-- A store over maps. -/
structure SparseStore where
  ids : Std.HashMap State Nat
  states : Std.HashMap Nat State
  edges : Std.HashMap Nat (List Edge)

namespace SparseStore

/-- The store without nodes. -/
def empty : SparseStore := { ids := ∅, states := ∅, edges := ∅ }

/-- The node of a state, a new one if it has none. Its node is new if it has the next free number. -/
def nodeId (g : SparseStore) (s : State) : Nat × SparseStore :=
  let next := g.ids.size + 1
  let (u, ids) : Nat × Std.HashMap State Nat :=
    match g.ids[s]? with
    | some u => (u, g.ids)
    | none => (next, g.ids.insert s next)
  (u, { g with ids, states := if u = next then g.states.insert u s else g.states })

/-- The state of a node. -/
def state? (g : SparseStore) (u : Nat) : Option State := g.states[u]?

/-- The edges of a node. -/
def edgesOf (g : SparseStore) (u : Nat) : List Edge := (g.edges[u]?).getD []

/-- The store with the edges of a node replaced; an unknown node changes nothing. -/
def setEdges (g : SparseStore) (u : Nat) (edges : List Edge) : SparseStore :=
  if g.states.contains u then { g with edges := g.edges.insert u edges } else g

/-- The number of edges. -/
def edgeCount (g : SparseStore) : Nat := g.edges.fold (fun n _ edges => n + edges.length) 0

end SparseStore

/-- A store of either kind. -/
inductive GraphStore where
  | dense (store : DenseStore)
  | sparse (store : SparseStore)

namespace GraphStore

/-- The node of a state, a new one if it has none. -/
def nodeId (g : GraphStore) (s : State) : Nat × GraphStore :=
  match g with
  | dense g =>
    let (u, g) := g.nodeId s
    (u, dense g)
  | sparse g =>
    let (u, g) := g.nodeId s
    (u, sparse g)

/-- The node of a state, if it has one. -/
def idOf? (g : GraphStore) (s : State) : Option Nat :=
  match g with
  | dense g => g.index[s]?
  | sparse g => g.ids[s]?

/-- The state of a node. -/
def state? (g : GraphStore) (u : Nat) : Option State :=
  match g with
  | dense g => g.state? u
  | sparse g => g.state? u

/-- The store with the edges of a node replaced; an unknown node changes nothing. -/
def setEdges (g : GraphStore) (u : Nat) (edges : List Edge) : GraphStore :=
  match g with
  | dense g => dense (g.setEdges u edges)
  | sparse g => sparse (g.setEdges u edges)

/-- The edges of a node, none for one that is unknown or not expanded. -/
def edges (g : GraphStore) (u : Nat) : List Edge :=
  match g with
  | dense g => g.edgesOf u
  | sparse g => g.edgesOf u

/-- The number of nodes; they are numbered from one. -/
def nodeCount (g : GraphStore) : Nat :=
  match g with
  | dense g => g.states.size
  | sparse g => g.ids.size

/-- The number of edges. -/
def edgeCount (g : GraphStore) : Nat :=
  match g with
  | dense g => g.edgeCount
  | sparse g => g.edgeCount

/-- The nodes in order. -/
def nodes (g : GraphStore) : List Nat := (List.range g.nodeCount).map (· + 1)

/-- The features on edges, in order and each once. -/
def featuresOf (edges : List Edge) : List Nat :=
  let all := (edges.flatMap fun e => e.labels.map (·.1)).mergeSort
  all.foldr (fun f seen => if seen.head? = some f then seen else f :: seen) []

/-- The number of label dependencies. -/
def dependencies (g : GraphStore) : Nat :=
  (g.nodes.map fun u => (featuresOf (g.edges u)).length * (g.edges u).length).sum

/-- A natural number in base ten. -/
def natText (n : Nat) : String := String.ofList (Decimal.natDigits n)

/-- The written form of a label. -/
def labelText (number : Nat → Nat) (label : Nat × Float) : String :=
  natText (number label.1) ++ if label.2 != 1 then "@" ++ Decimal.plain label.2 else ""

/-- The written form of an edge. -/
def edgeText (number : Nat → Nat) (source : Nat) (e : Edge) : String :=
  natText source ++ "->" ++ natText e.target ++ ":" ++
    ",".intercalate (e.labels.map (labelText number))

/-- The written form of a graph: its fields are separated by tabs. -/
def line (g : GraphStore) (features : FeatureTable) (inline : Bool) : String :=
  let used := if inline then featuresOf (g.nodes.flatMap g.edges) else []
  let number := fun f =>
    if inline then ((used.findIdx? (· == f)).map (· + 1)).getD 0 else f
  let counts := [g.nodeCount, g.edgeCount, g.dependencies].map natText
  let names := if inline then [":".intercalate (used.map fun f => (features.name? f).getD "")] else []
  let edges := g.nodes.flatMap fun u => (g.edges u).map (edgeText number u)
  "\t".intercalate (counts ++ names ++ edges)

end GraphStore

end ProofWalk
