import ProofWalk.Decimal.Reader
import ProofWalk.FeatureTable
import ProofWalk.Learning.Graph
import ProofWalk.Text.Numeral

/-!
# Reading grounded lines

A grounded line holds a query, the nodes of its labels and a graph, as fields separated by tabs. The
features of the graph are given by number; their names stand in a field of the line, or else in the
table of features of the run.

## Main definitions

* `LearningGraph.parse?` — the graph of the fields
* `TrainingExample`, `TrainingExample.parse?` — a whole line
-/

namespace ProofWalk

/-- A text cut at the first occurrence of another. -/
def cutAt (mark : List Char) : List Char → Option (List Char × List Char)
  | [] => if mark.isEmpty then some ([], []) else none
  | c :: r =>
    if mark.isPrefixOf (c :: r) then some ([], (c :: r).drop mark.length)
    else (cutAt mark r).map fun (before, after) => (c :: before, after)

/-- Where the names of features stand: in the line, or in a table if there is one. -/
inductive FeatureNames where
  | inline (names : Array String)
  | table (features : Option FeatureTable)

/-- The features of a graph while it is read: their names in order, and their numbers by name. -/
structure LocalFeatures where
  names : Array String
  numbers : Std.HashMap String Nat

namespace LocalFeatures

/-- No features. -/
def empty : LocalFeatures := { names := #[], numbers := ∅ }

/-- The number of a name, a new one if it has none. -/
def number (l : LocalFeatures) (name : String) : Nat × LocalFeatures :=
  match l.numbers[name]? with
  | some k => (k, l)
  | none =>
    (l.names.size, { names := l.names.push name, numbers := l.numbers.insert name l.names.size })

end LocalFeatures

namespace LearningGraph

/-- A count in the head of a graph. -/
def parseCount? (field : Option (List Char)) (which : HeaderCount) : Except GroundedFault Nat :=
  match field with
  | none => .error (.missingCount which)
  | some field =>
    match Text.readCount? (Text.trim field) with
    | some n => .ok n
    | none => .error (.notCount which (String.ofList field))

/-- The name of a feature. -/
def nameOf (names : FeatureNames) (number : Nat) : Except GroundedFault String :=
  match names with
  | .inline names =>
    match if number = 0 then none else names[number - 1]? with
    | some name => .ok name
    | none => .error (.notInlineFeature number)
  | .table features =>
    let name :=
      if number = 0 ∨ Numbers.limit ≤ number then none else features.bind (·.name? number)
    match name with
    | some name => .ok name
    | none => .error (.namelessFeature number)

/-- Reads a label. -/
def parseLabel? (names : FeatureNames) (l : LocalFeatures) (label : List Char) :
    Except GroundedFault ((Nat × Float) × LocalFeatures) := do
  let (number, weight) ←
    match cutAt ['@'] label with
    | none => pure (label, 1.0)
    | some (number, weight) =>
      match Decimal.readChars? weight with
      | some w => pure (number, w)
      | none => .error (.badLabelWeight (String.ofList label))
  match Text.readCount? number with
  | none => .error (.badFeatureNumber (String.ofList number))
  | some n =>
    let name ← nameOf names n
    let (k, l) := l.number name
    return ((k, weight), l)

/-- Reads labels. -/
def parseLabels? (names : FeatureNames) (l : LocalFeatures) :
    List (List Char) → Except GroundedFault (List (Nat × Float) × LocalFeatures)
  | [] => .ok ([], l)
  | label :: rest => do
    let (k, l) ← parseLabel? names l label
    let (ks, l) ← parseLabels? names l rest
    return (k :: ks, l)

/-- Reads an edge with its source. -/
def parseEdge? (nodes : Nat) (names : FeatureNames) (l : LocalFeatures) (field : List Char) :
    Except GroundedFault ((Nat × LearningEdge) × LocalFeatures) := do
  let edge := String.ofList field
  let some (source, tail) := cutAt ['-', '>'] field | .error (.edgeWithoutArrow edge)
  let some (target, labels) := cutAt [':'] tail | .error (.edgeWithoutLabels edge)
  let some u := Text.readCount? (Text.trim source) | .error (.badSource edge)
  let some v := Text.readCount? (Text.trim target) | .error (.badTarget edge)
  if u = 0 ∨ nodes < u ∨ v = 0 ∨ nodes < v then .error (.nodeOutside edge nodes)
  else
    let (labels, l) ←
      parseLabels? names l ((Text.splitAt ',' labels).filter fun label => !label.isEmpty)
    return ((u, { target := v, labels }), l)

/-- Reads edges with their sources. -/
def parseEdges? (nodes : Nat) (names : FeatureNames) (l : LocalFeatures) :
    List (List Char) → Except GroundedFault (List (Nat × LearningEdge) × LocalFeatures)
  | [] => .ok ([], l)
  | field :: rest => do
    let (e, l) ← parseEdge? nodes names l field
    let (es, l) ← parseEdges? nodes names l rest
    return (e :: es, l)

/-- Reads a graph from its fields: three counts, perhaps the names of the features, and the edges. A
field after the counts that holds no arrow is the names. -/
def parse? (fields : List (List Char)) (index : Option FeatureTable) :
    Except GroundedFault LearningGraph := do
  let nodes ← parseCount? fields[0]? .nodes
  let edgeCount ← parseCount? fields[1]? .edges
  let dependencies ← parseCount? fields[2]? .dependencies
  let (names, rest) : FeatureNames × List (List Char) :=
    match fields.drop 3 with
    | [] => (.table index, [])
    | field :: rest =>
      if (cutAt ['-', '>'] field).isSome then (.table index, field :: rest)
      else
        let names := (Text.splitAt ':' field).filter fun n => !n.isEmpty
        (.inline (names.map String.ofList).toArray, rest)
  let (edges, l) ←
    parseEdges? nodes names .empty (rest.filter fun field => !Text.isAllBlank field)
  if edges.length ≠ edgeCount then .error (.edgeCount edgeCount edges.length)
  else return ofEdges nodes edges l.names dependencies

end LearningGraph

/-- A grounded line: the query, the graph, where walks start, and the nodes of the labels. -/
structure TrainingExample where
  query : String
  graph : LearningGraph
  seed : List (Nat × Float)
  pos : List Nat
  neg : List Nat

namespace TrainingExample

/-- Reads the nodes of labels. -/
def parseNodes? (nodes : Nat) (field : List Char) : Except GroundedFault (List Nat) :=
  let items := ((Text.splitAt ',' field).map Text.trim).filter fun item => !item.isEmpty
  items.mapM fun item =>
    match Text.readCount? item with
    | some u => if u = 0 ∨ nodes < u then .error (.badLabelNode (String.ofList item)) else .ok u
    | none => .error (.badLabelNode (String.ofList item))

/-- Reads the fields of a line. -/
def ofFields? (index : Option FeatureTable) : List (List Char) → Except GroundedFault TrainingExample
  | query :: pos :: neg :: a :: b :: c :: rest => do
    let graph ← LearningGraph.parse? (a :: b :: c :: rest) index
    let pos ← parseNodes? graph.nodeCount pos
    let neg ← parseNodes? graph.nodeCount neg
    return { query := String.ofList query, graph, seed := [(1, 1)], pos, neg }
  | fields => .error (.fieldCount fields.length)

/-- Reads a grounded line. -/
def parse? (line : String) (index : Option FeatureTable) : Except Error TrainingExample :=
  let chars := (line.toList.reverse.dropWhile fun c => c == '\r' || c == '\n').reverse
  match ofFields? index (Text.splitAt '\t' chars) with
  | .ok e => .ok e
  | .error fault => .error (.malformedGrounded fault)

/-- The number of labels. -/
def labelCount (e : TrainingExample) : Nat := e.pos.length + e.neg.length

end TrainingExample

end ProofWalk
