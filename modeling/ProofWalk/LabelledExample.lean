import ProofWalk.Logic.Parser
import ProofWalk.Logic.Printer

/-!
# Labelled examples

An example is a query with the solutions that are known to be right and those that are known to be
wrong. In the written form the query and its signed solutions are separated by tabs.

## Main definitions

* `LabelledExample` — a query with its labels
* `LabelledExample.parse?`, `LabelledExample.text` — the written form
* `LabelledExample.checkLabels` — labels hold no variables
-/

namespace ProofWalk

/-- A query with its right and its wrong solutions. -/
structure LabelledExample where
  query : Query
  pos : List Query
  neg : List Query
deriving Repr, DecidableEq

namespace LabelledExample

/-- A query without labels. -/
def unlabelled (query : Query) : LabelledExample := { query, pos := [], neg := [] }

/-- The number of labels. -/
def labelCount (e : LabelledExample) : Nat := e.pos.length + e.neg.length

/-- Adds the labels of fields to an example, in the order of the fields. -/
def addLabels (line : Nat) (e : LabelledExample) : List (List Char) → Except Error LabelledExample
  | [] => .ok e
  | field :: rest =>
    match Text.trim field with
    | [] => addLabels line e rest
    | '+' :: label => do
      let q ← Query.parse? (String.ofList label)
      addLabels line { e with pos := e.pos ++ [q] } rest
    | '-' :: label => do
      let q ← Query.parse? (String.ofList label)
      addLabels line { e with neg := e.neg ++ [q] } rest
    | label => .error (.malformedExample line (.unsignedLabel (String.ofList label)))

/-- Reads the written form; `line` is its number in an error. -/
def parse? (text : String) (line : Nat) : Except Error LabelledExample :=
  let chars := (text.toList.reverse.dropWhile fun c => c == '\r' || c == '\n').reverse
  match Text.splitAt '\t' chars with
  | [] => .error (.malformedExample line .missingQuery)
  | queryText :: labels =>
    match Text.trim queryText with
    | [] => .error (.malformedExample line .missingQuery)
    | queryText => do
      let q ← Query.parse? (String.ofList queryText)
      addLabels line (unlabelled q) labels

/-- The written form. -/
def text (e : LabelledExample) : String :=
  String.ofList <| e.query.chars ++
    e.pos.flatMap (fun q => '\t' :: '+' :: q.chars) ++ e.neg.flatMap fun q => '\t' :: '-' :: q.chars

/-- The first variable of a label is an error. -/
def checkLabels (e : LabelledExample) : Except Error Unit :=
  (e.pos ++ e.neg).forM fun label =>
    match label.vars with
    | [] => .ok ()
    | v :: _ => .error (.unboundLabel label.text v.name)

end LabelledExample

end ProofWalk
