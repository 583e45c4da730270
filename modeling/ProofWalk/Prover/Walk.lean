import ProofWalk.ProofGraph.Basic
import ProofWalk.Prover.Options
import ProofWalk.Prover.Weighting

/-!
# Walks

A prover walks on a graph that grows as its links are asked for. It needs no more of the graph than
the operations below, so it walks on a proof graph as well as on a given finite or infinite one.
Expanding and counting go on through a failure: what the graph has become stays.

## Main definitions

* `Walkable` — a graph whose links can be asked for
* `Session`, `Walk` — a computation on a graph
* `weighLinks` — the links of a node with their weights and the total
* `Scores` — numbers by node
-/

namespace ProofWalk

-- powers of numbers are those of the core library
attribute [local instance (2000)] instPowNat

/-- A graph whose links can be asked for. -/
class Walkable (Γ : Type) where
  start : Γ → Nat
  links : Γ → Nat → Bool → Except Error (List Link) × Γ
  degree : Γ → Nat → Bool → Except Error Nat × Γ
  isCompleted : Γ → Nat → Bool

instance : Walkable ProofGraph where
  start g := g.startId
  links := ProofGraph.links
  degree := ProofGraph.degree
  isCompleted := ProofGraph.isCompleted

/-- A graph that is walked on, and how many features had a learned weight. -/
structure Session (Γ : Type) where
  graph : Γ
  tally : Tally

/-- A computation on a graph; the graph stays also when it fails. -/
abbrev Walk (Γ α : Type) := ExceptT Error (StateM (Session Γ)) α

/-- Numbers by node. -/
abbrev Scores (K : Type) := Std.TreeMap Nat K

/-- The score of a node, zero if it has none. -/
def Scores.at {K : Type} [Scalar K] (s : Scores K) (u : Nat) : K := (s[u]?).getD 0

/-- The scores with an amount added at a node. -/
def Scores.add {K : Type} [Scalar K] (s : Scores K) (u : Nat) (x : K) : Scores K :=
  s.insert u (s.at u + x)

/-- A bound on the depth and on the rounds of a walk, beyond the reach of any run. -/
def walkLimit : Nat := 2 ^ (62 : Nat)

namespace Walk

variable {Γ K : Type} [Walkable Γ] [Scalar K]

/-- The start node. -/
def start : Walk Γ Nat := fun s => (.ok (Walkable.start s.graph), s)

/-- Whether a node completes the proof. -/
def isCompleted (u : Nat) : Walk Γ Bool := fun s => (.ok (Walkable.isCompleted s.graph u), s)

/-- The links of a node. -/
def links (u : Nat) (loops : Bool) : Walk Γ (List Link) := fun s =>
  let (r, graph) := Walkable.links s.graph u loops
  (r, { s with graph })

/-- The number of links of a node, as a scalar. -/
def degree (u : Nat) : Walk Γ K := fun s =>
  let (r, graph) := Walkable.degree s.graph u true
  (r.map Scalar.ofNat, { s with graph })

/-- Weighs a link. -/
def weigh (w : Weighting K) (l : Link) : Walk Γ (Nat × K) := fun s =>
  let tally := s.tally.count (w.known l.features) l.features.length
  (.ok (l.child, w.weight l.features), { s with tally })

/-- The nodes that a node leads to with the weights of the links, and the total weight. -/
def weighLinks (w : Weighting K) (u : Nat) (loops : Bool) : Walk Γ (List (Nat × K) × K) := do
  let links ← links u loops
  let weighed ← links.mapM (weigh w)
  pure (weighed, Scalar.sum (weighed.map (·.2)))

end Walk

end ProofWalk
