import ProofWalk.Prover.PowerIteration
import ProofWalk.Prover.Queue
import ProofWalk.Registry

/-!
# Provers

A prover is a way to walk with options and edge weights. It proves one query at a time: a prover
that is in use refuses another proof, and a copy of it does not.

## Main definitions

* `ProverKind`, `Prover`
* `Prover.prove` — the scores of the nodes of a proof graph
* `completedScores` — those of completed states, the best first
-/

namespace ProofWalk

/-- The ways to walk. The depth-first one may leave out the loops at completed states. -/
inductive ProverKind where
  | dfs (loops : Bool)
  | ppr
  | dpr
  | idppr
  | iddpr
  | qpr
deriving Repr, DecidableEq

namespace ProverKind

/-- The name that a prover is chosen by. -/
def name : ProverKind → String
  | dfs _ => "dfs"
  | ppr => "ppr"
  | dpr => "dpr"
  | idppr => "idppr"
  | iddpr => "iddpr"
  | qpr => "qpr"

/-- All provers under their names. -/
def registry : Registry ProverKind := .ofList name [dfs true, ppr, dpr, idppr, iddpr, qpr]

/-- The prover of a name. -/
def ofName? (name : String) : Except Error ProverKind := registry.choose .prover name

/-- The kind of graph that a prover walks on. -/
def graphKind : ProverKind → GraphKind
  | dfs _ | ppr | dpr => .state
  | idppr | iddpr | qpr => .cachingId

end ProverKind

/-- A way to walk with options and edge weights; `inUse` while it proves. -/
structure Prover (K : Type) where
  kind : ProverKind
  options : WalkOptions K
  weighter : Weighter K
  inUse : Bool

namespace Prover

variable {K : Type} [Scalar K]

/-- A prover that is not in use. -/
def new (kind : ProverKind) (options : WalkOptions K) (weighter : Weighter K) : Prover K :=
  { kind, options, weighter, inUse := false }

/-- The prover of a name. -/
def ofName? (name : String) (options : WalkOptions K) (weighter : Weighter K) :
    Except Error (Prover K) :=
  (ProverKind.ofName? name).map fun kind => new kind options weighter

/-- Another prover of the same kind, which is not in use. -/
def copy (p : Prover K) : Prover K := { p with inUse := false }

/-- The prover while it proves. -/
def entered (p : Prover K) : Prover K := { p with inUse := true }

/-- A fresh proof graph of the kind that the prover walks on. -/
def makeGraph (p : Prover K) (labelled : LabelledExample) (program : Program)
    (relations : List Relation) (features : FeatureTable) : Except Error ProofGraph :=
  ProofGraph.new p.kind.graphKind labelled program relations features

/-- Starts a session on a graph, if the prover is not in use and the graph is of a kind it can
walk on. A prover that walks on states walks on both kinds. -/
def enter (p : Prover K) : Walk ProofGraph Unit := fun s =>
  if p.inUse then (.error (.reentrant p.kind.name), s)
  else if p.kind.graphKind == .cachingId && s.graph.kind != .cachingId then
    (.error (.wrongGraphKind p.kind.name GraphKind.cachingId.text), s)
  else (.ok (), s)

/-- The scores of the nodes of a proof graph. -/
def prove (p : Prover K) : Walk ProofGraph (Scores K) := do
  p.enter
  let w := p.weighter.weighting
  match p.kind with
  | .dfs loops => Walk.pathSums w p.options loops
  | .ppr => Walk.powerSparse w p.options
  | .dpr => do return (← Walk.pushSparse w p.options).settled
  | .idppr => do return scoresOfArray (← Walk.powerDense w p.options)
  | .iddpr => do return scoresOfArray (← Walk.pushDense w p.options).settled
  | .qpr => do return scoresOfArray (← Walk.pushByPriority w p.options).settled

/-- The settled and the residual mass of the nodes in order, and all of it together, of a prover that
pushes. -/
def masses (p : Prover K) : Walk ProofGraph (List K × List K × K) := do
  let w := p.weighter.weighting
  let ofDense (m : DenseMass K) : List K × List K × K :=
    (m.settled.toList.drop 1, m.residual.toList.drop 1, m.total)
  match p.kind with
  | .iddpr => return ofDense (← Walk.pushDense w p.options)
  | .qpr => return ofDense (← Walk.pushByPriority w p.options)
  | _ =>
    let m ← Walk.pushSparse w p.options
    let nodes ← fun s => (.ok s.graph.store.nodes, s)
    return (nodes.map m.settled.at, nodes.map m.residual.at, m.total)

/-- A session on a graph in which nothing has been counted. -/
def session (g : ProofGraph) : Session ProofGraph := { graph := g, tally := .zero }

/-- The scores of the nodes of a graph, and what the graph has become. -/
def proveOn (p : Prover K) (g : ProofGraph) : Except Error (Scores K) × ProofGraph :=
  let (r, s) := p.prove.run (session g)
  (r, s.graph)

end Prover

/-- The scores of the completed states, the best first. -/
def completedScores {K : Type} [Scalar K] (g : ProofGraph) (scores : Scores K) : List (Nat × K) :=
  (scores.toList.filter fun (u, _) => g.isCompleted u).mergeSort fun a b =>
    (Scalar.order a.2 b.2) != .lt

end ProofWalk
