import ProofWalk.LabelledExample
import ProofWalk.Machine.Interpreter
import ProofWalk.ProofGraph.Store

/-!
# Proof graphs

The proof graph of an example has a node for every class of states that stand for the same goals
and the same answer; the first state met of a class represents it. A node is expanded when its
links are asked for, once. Its links are the steps of the machine, followed by a restart to the
start state. A completed state has a loop to itself as well, which comes first and only when loops
are asked for.

## Main definitions

* `ProofGraph` — the part of the graph met so far
* `ProofGraph.expanded` — the links of a node
* `ProofGraph.idFor` — the node of a state
* `ProofGraph.explore` — expansion level by level
-/

namespace ProofWalk

/-- How a proof graph keeps its nodes: by state, or with numbers that provers may walk on. -/
inductive GraphKind where
  | state
  | cachingId
deriving Repr, DecidableEq

/-- What a kind of graph is called. -/
def GraphKind.text : GraphKind → String
  | state => "state"
  | cachingId => "caching-id"

/-- A link from a node: the node it leads to and the features that label it. -/
structure Link where
  child : Nat
  features : FeatureMap

/-- The links of a node: those it always has, the loop of a completed state, and which of the two
forms the store holds, with the loop or without. -/
structure Expansion where
  base : List Link
  loop : Option Link
  recorded : Option Bool

namespace Expansion

/-- The links of a node, with its loop if loops are asked for. -/
def links (e : Expansion) (loops : Bool) : List Link :=
  (if loops then e.loop.toList else []) ++ e.base

/-- The number of links. -/
def degree (e : Expansion) (loops : Bool) : Nat :=
  e.base.length + if loops && e.loop.isSome then 1 else 0

/-- Whether the store does not hold the form asked for. Links once recorded with the loop stay. -/
def isStale (e : Expansion) (loops : Bool) : Bool :=
  match e.recorded with
  | none => true
  | some withLoop => loops && !withLoop && e.loop.isSome

end Expansion

/-- The part of the proof graph of an example that has been met so far. -/
structure ProofGraph where
  labelled : LabelledExample
  code : Code
  start : State
  startId : Nat
  classes : Std.HashMap Key State
  store : GraphStore
  features : FeatureTable
  expansions : Std.HashMap Nat Expansion

namespace ProofGraph

/-- The store that a kind of graph begins with. -/
def emptyStore : GraphKind → GraphStore
  | .state => .sparse .empty
  | .cachingId => .dense .empty

/-- The graph of an example with its start state as the only node. -/
def new (kind : GraphKind) (labelled : LabelledExample) (program : Program)
    (relations : List Relation) (features : FeatureTable) : Except Error ProofGraph :=
  match (Machine.new program relations).startQuery labelled.query with
  | (.error e, _) => .error e
  | (.ok start, m) =>
    let (startId, store) := (emptyStore kind).nodeId start
    .ok
      { labelled, code := m.code, start, startId, store, features
        classes := (∅ : Std.HashMap Key State).insert (m.code.key start) start
        expansions := ∅ }

/-- The kind of a graph. -/
def kind (g : ProofGraph) : GraphKind :=
  match g.store with
  | .sparse _ => .state
  | .dense _ => .cachingId

/-- The state that represents the class of a state. -/
def representative (g : ProofGraph) (s : State) : State × ProofGraph :=
  let key := g.code.key s
  match g.classes[key]? with
  | some r => (r, g)
  | none => (s, { g with classes := g.classes.insert key s })

/-- The node that a state's representative has. -/
def classNode (g : ProofGraph) (s : State) : Nat × ProofGraph :=
  let (r, g) := g.representative s
  let (u, store) := g.store.nodeId r
  (u, { g with store })

/-- The node of a state, that of its class if it is no node itself. -/
def idFor (g : ProofGraph) (s : State) : Nat × ProofGraph :=
  match g.store.idOf? s with
  | some u => (u, g)
  | none => g.classNode s

/-- The links to the nodes of successors. -/
def linksTo (g : ProofGraph) : List Outlink → List Link × ProofGraph
  | [] => ([], g)
  | o :: rest =>
    let (child, g) := g.classNode o.child
    let (links, g) := linksTo g rest
    ({ child, features := o.features } :: links, g)

/-- The steps of the machine from a state. -/
def steps (g : ProofGraph) (s : State) : Except Error (List Outlink) :=
  if s.completed || s.failed then .ok [] else (g.code.outlinks s .initial).1

/-- The expansion of a node with a given state. -/
def expand (g : ProofGraph) (u : Nat) (s : State) : Except Error Expansion × ProofGraph :=
  match g.steps s with
  | .error e => (.error e, g)
  | .ok steps =>
    let (links, g) := g.linksTo steps
    let restart :=
      if s.failed then []
      else [{ child := g.startId, features := .single restartFeature 1 }]
    let loopName := if u = g.startId then startLoopFeature else loopFeature
    let loop := if s.completed then some { child := u, features := .single loopName 1 } else none
    (.ok { base := links ++ restart, loop, recorded := none }, g)

/-- The numbers of the features on a link. -/
def internLabels (t : FeatureTable) :
    FeatureMap → Except Error (List (Nat × Float)) × FeatureTable
  | [] => (.ok [], t)
  | (name, weight) :: rest =>
    match t.intern name with
    | (.error e, t) => (.error e, t)
    | (.ok n, t) =>
      match internLabels t rest with
      | (.ok labels, t) => (.ok ((n, weight) :: labels), t)
      | (.error e, t) => (.error e, t)

/-- The edges that record links. -/
def edgesOf (t : FeatureTable) : List Link → Except Error (List Edge) × FeatureTable
  | [] => (.ok [], t)
  | link :: rest =>
    match internLabels t link.features with
    | (.error e, t) => (.error e, t)
    | (.ok labels, t) =>
      match edgesOf t rest with
      | (.ok edges, t) => (.ok ({ target := link.child, labels } :: edges), t)
      | (.error e, t) => (.error e, t)

/-- Records the links of a node in the store if it does not hold them. -/
def record (g : ProofGraph) (u : Nat) (e : Expansion) (loops : Bool) :
    Except Error Expansion × ProofGraph :=
  if e.isStale loops then
    match edgesOf g.features (e.links loops) with
    | (.error err, features) => (.error err, { g with features })
    | (.ok edges, features) =>
      let e := { e with recorded := some loops }
      (.ok e,
        { g with
          features
          store := g.store.setEdges u edges
          expansions := g.expansions.insert u e })
  else (.ok e, g)

/-- The expansion of a node, computed and recorded when it is asked for. -/
def expanded (g : ProofGraph) (u : Nat) (loops : Bool) : Except Error Expansion × ProofGraph :=
  match g.expansions[u]? with
  | some e => g.record u e loops
  | none =>
    match g.store.state? u with
    | none => (.error .unknownState, g)
    | some s =>
      match g.expand u s with
      | (.error e, g) => (.error e, g)
      | (.ok e, g) => { g with expansions := g.expansions.insert u e }.record u e loops

/-- The links of a node. -/
def links (g : ProofGraph) (u : Nat) (loops : Bool) : Except Error (List Link) × ProofGraph :=
  let (r, g) := g.expanded u loops
  (r.map (·.links loops), g)

/-- The number of links of a node. -/
def degree (g : ProofGraph) (u : Nat) (loops : Bool) : Except Error Nat × ProofGraph :=
  let (r, g) := g.expanded u loops
  (r.map (·.degree loops), g)

/-- Asks for the links of nodes in turn, of at most as many as the third argument says. Gives how
many more may be asked for. -/
def expandAll (g : ProofGraph) (loops : Bool) : List Nat → Option Nat → Except Error (Option Nat) × ProofGraph
  | [], left => (.ok left, g)
  | u :: rest, left =>
    if left = some 0 then (.ok left, g)
    else
      match g.links u loops with
      | (.error e, g) => (.error e, g)
      | (.ok _, g) => expandAll g loops rest (left.map (· - 1))

/-- Expands the graph level by level: a level is all nodes known when it begins that no earlier level
asked for. Goes through at most `depth` levels, with at most `left` nodes if a number is given, from
the nodes after the first `done`. Gives how many nodes have been asked for. -/
def explore (loops : Bool) : Nat → Option Nat → Nat → ProofGraph → Except Error Nat × ProofGraph
  | 0, _, done, g => (.ok done, g)
  | depth + 1, left, done, g =>
    let known := g.store.nodeCount
    let level := List.range' (done + 1) (known - done)
    if level.isEmpty then (.ok done, g)
    else
      match g.expandAll loops level left with
      | (.error e, g) => (.error e, g)
      | (.ok (some 0), g) => (.ok (done + min (left.getD 0) level.length), g)
      | (.ok left, g) => explore loops depth left known g

/-- What a graph tells of a state of the query's: the number of links of its node, loops counted, and
the nodes that they lead to, loops left out. -/
def visit (g : ProofGraph) (s : State) : Except Error (Nat × List Nat) × ProofGraph :=
  let (u, g) := g.idFor s
  match g.degree u true with
  | (.error e, g) => (.error e, g)
  | (.ok degree, g) =>
    let (r, g) := g.links u false
    (r.map fun links => (degree, links.map (·.child)), g)

/-- The query with the bindings of a state in place. -/
def fill (g : ProofGraph) (s : State) : Query := g.code.fill g.labelled.query s

/-- Whether a node's state completes the proof. -/
def isCompleted (g : ProofGraph) (u : Nat) : Bool :=
  match g.store.state? u with
  | some s => s.completed
  | none => false

/-- What a state stands for: its solution if it completes the proof, else its place. -/
def describeState (g : ProofGraph) (s : State) : String :=
  if s.completed then (g.fill s).text else s.text

/-- The expanded nodes that call a predicate, in order. -/
def callers (g : ProofGraph) (label : String) : List Nat :=
  g.store.nodes.filter fun u =>
    g.expansions.contains u &&
      (g.store.state? u).any fun s => s.pending == some label && !s.completed && !s.failed

/-- The written form of what has been recorded. -/
def line (g : ProofGraph) (inline : Bool) : String := g.store.line g.features inline

end ProofGraph

end ProofWalk
