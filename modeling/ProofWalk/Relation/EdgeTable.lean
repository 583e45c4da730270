import ProofWalk.Error
import ProofWalk.Logic.Basic
import ProofWalk.Decimal.Reader
import ProofWalk.Files
import ProofWalk.Relation.Row
import ProofWalk.Text.Lines
import Std.Data.HashMap

/-!
# Edge tables

Labelled edges answer binary predicates. The edges of a label are kept by source; a call with an
unbound source goes through the sources in the order of their names.

In the written form a line is a label, a source, a destination and, if wanted, a weight, separated
by tabs. A line that starts with `#` is a comment.

## Main definitions

* `EdgeTable` — the edges of some files
* `EdgeTable.add`, `EdgeTable.lookup`
* `EdgeTable.extend?`, `EdgeTable.load` — the written form
-/

namespace ProofWalk

-- sums of numbers are those of the core library
attribute [local instance (2000)] Zero.ofOfNat0

/-- The edges of one label by source, and their number. -/
structure LabelEdges where
  bySource : Std.HashMap String (Array (String × Float))
  count : Nat

/-- The edges of some files: a name, the feature of the answers, and the edges by predicate. -/
structure EdgeTable where
  name : String
  feature : String
  labels : Std.HashMap String LabelEdges

namespace EdgeTable

/-- A table without edges. -/
def empty (name : String) : EdgeTable :=
  { name := name, feature := tableFeature name, labels := ∅ }

/-- A table with an edge added. -/
def add (t : EdgeTable) (label source target : String) (weight : Float) : EdgeTable :=
  { t with
    labels := t.labels.alter (predicateLabel label 2) fun edges =>
      let edges := edges.getD { bySource := ∅, count := 0 }
      some
        { bySource := edges.bySource.alter source fun out =>
            some ((out.getD #[]).push (target, weight))
          count := edges.count + 1 } }

/-- The number of edges. -/
def edgeCount (t : EdgeTable) : Nat := (t.labels.toList.map fun l => l.2.count).sum

/-- Whether the table has edges for a predicate. -/
def claims (t : EdgeTable) (label : String) : Bool := t.labels.contains label

/-- The edges from one source whose destination agrees with the argument. -/
def rowsFrom (t : EdgeTable) (edges : LabelEdges) (target : Option String) (source : String) :
    List Row :=
  (((edges.bySource[source]?).getD #[]).toList.filter fun e => target.all (· == e.1)).map
    fun (target, weight) =>
      { values := [source, target], features := .single t.feature weight }

/-- The sources of a label in the order of their names. -/
def sources (edges : LabelEdges) : List String := edges.bySource.keys.mergeSort

/-- The edges of a predicate that agree with a call: those of one source in the order in which
they were added, the sources in the order of their names. -/
def lookup (t : EdgeTable) (label : String) (args : CallArgs) : List Row :=
  match t.labels[label]?, args with
  | some edges, [some source, target] => t.rowsFrom edges target source
  | some edges, [none, target] => (sources edges).flatMap (t.rowsFrom edges target)
  | _, _ => []

/-- What the table is, for a log. -/
def about (t : EdgeTable) : String := s!"graph {t.name} ({t.edgeCount} edges)"

/-- Adds the edge of a line. -/
def addLine (t : EdgeTable) (line : String) : Except RowFault EdgeTable :=
  match Text.fields '\t' line with
  | [label, source, target] => .ok (t.add label source target 1)
  | [label, source, target, weightText] =>
    match Decimal.read? (Text.trimmed weightText) with
    | some weight => .ok (t.add label source target weight)
    | none => .error (.weightNotNumber weightText)
  | fields => .error (.fieldCount fields.length)

/-- Adds the edges of numbered lines up to the first faulty one. -/
def addLines (t : EdgeTable) (name : String) :
    List (Nat × List Char) → Except Error Unit × EdgeTable
  | [] => (.ok (), t)
  | (number, line) :: rest =>
    let line := (line.reverse.dropWhile (· == '\r')).reverse
    if Text.isAllBlank line || line.head? == some '#' then addLines t name rest
    else match t.addLine (String.ofList line) with
      | .ok t => addLines t name rest
      | .error fault => (.error (.malformedRow name number fault), t)

/-- Adds the edges of a written form; `name` labels errors. Edges before a faulty line stay. -/
def extend? (t : EdgeTable) (name text : String) : Except Error Unit × EdgeTable :=
  t.addLines name (Text.numbered 1 (Text.lines text.toList))

/-- Adds the edges of files. -/
def addFiles {m : Type → Type} [Monad m] [Files m] (t : EdgeTable) :
    List String → ExceptT Error m EdgeTable
  | [] => pure t
  | path :: rest => do
    match ← Files.read? (m := m) path with
    | none => throw (.programFile path)
    | some text =>
      match t.extend? path text with
      | (.ok (), t) => addFiles t rest
      | (.error e, _) => throw e

/-- Reads files into one table, which is named for the first one. -/
def load {m : Type → Type} [Monad m] [Files m] (paths : List String) :
    ExceptT Error m EdgeTable :=
  (empty (match paths with | [] => "graph" | path :: _ => fileStem path)).addFiles paths

end EdgeTable

end ProofWalk
