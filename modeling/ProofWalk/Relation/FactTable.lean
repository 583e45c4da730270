import ProofWalk.Error
import ProofWalk.Logic.Basic
import ProofWalk.Decimal.Reader
import ProofWalk.Files
import ProofWalk.Relation.Row
import ProofWalk.Text.Lines
import Std.Data.HashMap

/-!
# Fact tables

A fact is a functor and a tuple of constants with a weight. Each predicate has its rows in the
order in which they were added and, for each argument place, an index from constants to rows.
A look-up takes the shortest index list among the bound arguments and keeps the rows that agree
with all of them.

In the written form a line is a functor and its arguments, separated by tabs. A functor that ends
in `#` has a weight in a last column.

## Main definitions

* `FactTable` — the facts of one file
* `FactTable.add`, `FactTable.lookup`
* `FactTable.parse?`, `FactTable.load` — the written form
-/

namespace ProofWalk

/-- The rows of one predicate, indexed by each argument place. -/
structure IndexedRows where
  rows : Array (List String × Float)
  byArgument : Array (Std.HashMap String (Array Nat))

namespace IndexedRows

/-- No rows. -/
def empty : IndexedRows := { rows := #[], byArgument := #[] }

/-- The index of one argument place with a row added under a constant. -/
def indexRow (row : Nat) (constant : String) (index : Std.HashMap String (Array Nat)) :
    Std.HashMap String (Array Nat) :=
  index.alter constant fun rows => some ((rows.getD #[]).push row)

/-- The rows with one more at the end. -/
def insert (t : IndexedRows) (values : List String) (weight : Float) : IndexedRows :=
  let missing := values.length - t.byArgument.size
  let byArgument := t.byArgument ++ Array.replicate missing (∅ : Std.HashMap String (Array Nat))
  { rows := t.rows.push (values, weight)
    byArgument := byArgument.mapIdx fun i index =>
      match values[i]? with
      | some c => indexRow t.rows.size c index
      | none => index }

/-- The rows that an argument place has under a constant. -/
def hits (t : IndexedRows) (place : Nat) (constant : String) : Array Nat :=
  match t.byArgument[place]? with
  | some index => (index[constant]?).getD #[]
  | none => #[]

/-- The shorter of two index lists, the first one if they are equally long. -/
def shorter (best : Option (Array Nat)) (found : Array Nat) : Option (Array Nat) :=
  match best with
  | none => some found
  | some b => if found.size < b.size then some found else some b

/-- The shortest index list among the bound arguments from `place` on. -/
def shortestHits (t : IndexedRows) (place : Nat) (best : Option (Array Nat)) :
    CallArgs → Option (Array Nat)
  | [] => best
  | some c :: rest => shortestHits t (place + 1) (shorter best (t.hits place c)) rest
  | none :: rest => shortestHits t (place + 1) best rest

/-- The rows that may agree with a call: those of the shortest index list, or all. -/
def candidates (t : IndexedRows) (args : CallArgs) : List Nat :=
  match t.shortestHits 0 none args with
  | some rows => rows.toList
  | none => List.range t.rows.size

/-- The rows that agree with a call, in the order in which they were added. -/
def select (t : IndexedRows) (args : CallArgs) : List (List String × Float) :=
  (t.candidates args).filterMap fun r =>
    match t.rows[r]? with
    | some row => if agrees row.1 args then some row else none
    | none => none

end IndexedRows

/-- The facts of one file: its name, the feature of its answers, and the rows by predicate. -/
structure FactTable where
  name : String
  feature : String
  tables : Std.HashMap String IndexedRows
  size : Nat

namespace FactTable

/-- A table without facts. -/
def empty (name : String) : FactTable :=
  { name := name, feature := tableFeature name, tables := ∅, size := 0 }

/-- A table with a fact added. -/
def add (t : FactTable) (functor : String) (args : List String) (weight : Float) : FactTable :=
  let rows := (t.tables[predicateLabel functor args.length]?).getD .empty
  { t with
    tables := t.tables.insert (predicateLabel functor args.length) (rows.insert args weight)
    size := t.size + 1 }

/-- Whether the table has facts of a predicate. -/
def claims (t : FactTable) (label : String) : Bool := t.tables.contains label

/-- The facts of a predicate that agree with a call. -/
def lookup (t : FactTable) (label : String) (args : CallArgs) : List Row :=
  match t.tables[label]? with
  | none => []
  | some rows => (rows.select args).map fun (values, weight) =>
      { values := values, features := .single t.feature weight }

/-- What the table is, for a log. -/
def about (t : FactTable) : String := s!"facts {t.name} ({t.size} facts)"

/-- Adds the fact of a line. -/
def addLine (t : FactTable) (line : String) : Except RowFault FactTable :=
  match Text.fields '\t' line with
  | [] => .ok t
  | functor :: args =>
    match functor.toList.reverse with
    | '#' :: functor =>
      match args.reverse with
      | [] => .error .noWeightColumn
      | weightText :: args =>
        match Decimal.read? (Text.trimmed weightText) with
        | none => .error (.weightNotNumber weightText)
        | some weight => .ok (t.add (String.ofList functor.reverse) args.reverse weight)
    | _ => .ok (t.add functor args 1)

/-- Adds the facts of numbered lines. -/
def addLines (t : FactTable) : List (Nat × List Char) → Except Error FactTable
  | [] => .ok t
  | (number, line) :: rest =>
    let line := (line.reverse.dropWhile (· == '\r')).reverse
    if Text.isAllBlank line then addLines t rest
    else match t.addLine (String.ofList line) with
      | .ok t => addLines t rest
      | .error fault => .error (.malformedRow t.name number fault)

/-- Reads the written form; `name` labels errors and the feature. -/
def parse? (name text : String) : Except Error FactTable :=
  (empty name).addLines (Text.numbered 1 (Text.lines text.toList))

/-- Reads a file. The feature and errors carry the file's stem, the table its path. -/
def load {m : Type → Type} [Monad m] [Files m] (path : String) : ExceptT Error m FactTable := do
  match ← Files.read? (m := m) path with
  | none => throw (.programFile path)
  | some text =>
    match parse? (fileStem path) text with
    | .ok t => pure { t with name := path }
    | .error e => throw e

end FactTable

end ProofWalk
