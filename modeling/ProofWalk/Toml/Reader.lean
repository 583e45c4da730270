import ProofWalk.Toml.Scalar

/-!
# Reading documents

A document is a list of lines that open tables and assign keys. A key may be dotted, and the tables
on its way are made as they are needed. A table may be opened once, and a key assigned once; tables
made by dotted keys cannot be opened, and tables that were opened cannot be reached by dotted keys.

## Main definitions

* `Node` — a document while it is read
* `readValue?` — values, at most `nesting` deep
* `parse?` — the entries of a document
-/

namespace ProofWalk.Toml

/-- How a table came to be: on the way to another table, on the way of a dotted key, or opened. -/
inductive Origin where
  | implicit
  | dotted
  | opened
deriving DecidableEq

/-- A document while it is read: values, tables, and the tables of an array in reverse order. -/
inductive Node where
  | value (v : Value)
  | table (origin : Origin) (entries : List (String × Node))
  | tables (reversed : List (List (String × Node)))

namespace Node

/-- The entries of a table under construction. -/
abbrev Entries := List (String × Node)

mutual

/-- The value that a node stands for. -/
def toValue : Node → Value
  | .value v => v
  | .table _ entries => .table (entryValues entries)
  | .tables reversed => .array (tableValues reversed).reverse

/-- The values of the entries of a table. -/
def entryValues : List (String × Node) → List (String × Value)
  | [] => []
  | (name, n) :: rest => (name, n.toValue) :: entryValues rest

/-- The values of the tables of an array. -/
def tableValues : List (List (String × Node)) → List Value
  | [] => []
  | entries :: rest => .table (entryValues entries) :: tableValues rest

end

/-- Entries with the one of a name replaced or added at the end. -/
def put (entries : Entries) (name : String) (n : Node) : Entries :=
  if (entries.lookup name).isSome then
    entries.map fun e => if e.1 == name then (name, n) else e
  else entries ++ [(name, n)]

/-- Changes the entries that a path leads to. Tables on the way are made with the given origin; with
dotted keys only tables that were not opened may be passed. -/
def descend (dotted : Bool) (change : Origin → Entries → Option Entries) :
    List String → Origin → Entries → Option Entries
  | [], origin, entries => change origin entries
  | name :: path, _, entries => do
    match entries.lookup name with
    | none =>
      let origin := if dotted then Origin.dotted else .implicit
      let inner ← descend dotted change path origin []
      return put entries name (.table origin inner)
    | some (.value _) => none
    | some (.table origin inner) =>
      if dotted && origin == .opened then none
      else
        let inner ← descend dotted change path origin inner
        return put entries name (.table origin inner)
    | some (.tables []) => none
    | some (.tables (last :: before)) =>
      let last ← descend dotted change path .opened last
      return put entries name (.tables (last :: before))

/-- Assigns a key in a table; the key is new, and a table of dotted keys takes only dotted keys. -/
def assign (path : List String) (name : String) (v : Value) (entries : Entries) : Option Entries :=
  descend true (fun origin entries =>
    if (origin == .dotted) == path.isEmpty then none
    else if (entries.lookup name).isSome then none
    else some (entries ++ [(name, .value v)])) path .opened entries

/-- Opens a table. -/
def openTable (path : List String) (name : String) (entries : Entries) : Option Entries :=
  descend false (fun _ entries =>
    match entries.lookup name with
    | none => some (put entries name (.table .opened []))
    | some (.table .implicit inner) => some (put entries name (.table .opened inner))
    | some _ => none) path .opened entries

/-- Opens another table of an array. -/
def openItem (path : List String) (name : String) (entries : Entries) : Option Entries :=
  descend false (fun _ entries =>
    match entries.lookup name with
    | none => some (put entries name (.tables [[]]))
    | some (.tables items) => some (put entries name (.tables ([] :: items)))
    | some _ => none) path .opened entries

end Node

/-- A character of a key without quotes. -/
def isBareKey (c : Char) : Bool := c.isAlphanum || c == '_' || c == '-'

/-- One part of a key. -/
def readKeyPart? (s : List Char) : Option (String × List Char) :=
  match s with
  | '"' :: _ => (readShort? s).map fun (t, r) => (String.ofList t, r)
  | '\'' :: _ => (readShort? s).map fun (t, r) => (String.ofList t, r)
  | _ =>
    let bare := s.takeWhile isBareKey
    if bare.isEmpty then none else some (String.ofList bare, s.dropWhile isBareKey)

/-- The parts of a key, with points between them, and what follows the blanks behind it. A key has
fewer parts than `limit`. -/
def readKey? : Nat → Reader (List String)
  | 0, _ => none
  | limit + 1, s => do
    let (part, s) ← readKeyPart? (skipSpace s)
    match skipSpace s with
    | '.' :: r =>
      let (parts, r) ← readKey? limit r
      return (part :: parts, r)
    | s => return ([part], s)

/-- Values nest less deep than this, and keys have fewer parts. -/
def nesting : Nat := 79

/-- The path and the name of a key. -/
def splitKey (parts : List String) : Option (List String × String) :=
  parts.getLast?.map fun name => (parts.dropLast, name)

/-- What follows blanks, line ends and comments. -/
def skipLines : Nat → List Char → Option (List Char)
  | 0, _ => none
  | n + 1, s =>
    match skipSpace s with
    | '#' :: r =>
      let rest := r.dropWhile isText
      match rest with
      | [] => some []
      | _ => (afterNewline? rest).bind (skipLines n)
    | s =>
      match afterNewline? s with
      | some r => skipLines n r
      | none => some s

/-- The items of an array, after its opening bracket or a comma. -/
def readItems? (item : Reader Value) : Nat → List Value → Reader (List Value)
  | 0, _, _ => none
  | n + 1, items, s => do
    let s ← skipLines (s.length + 1) s
    match s with
    | ']' :: r => return (items.reverse, r)
    | _ =>
      let (v, s) ← item s
      let s ← skipLines (s.length + 1) s
      match s with
      | ',' :: r => readItems? item n (v :: items) r
      | ']' :: r => return ((v :: items).reverse, r)
      | _ => none

/-- A key with its value; the equals sign follows the key. -/
def readAssignment? (item : Reader Value) (s : List Char) :
    Option ((List String × String × Value) × List Char) := do
  let (parts, s) ← readKey? nesting s
  let (path, name) ← splitKey parts
  let s ← after? ['='] s
  let (v, s) ← item (skipSpace s)
  return ((path, name, v), skipSpace s)

/-- The entries of a table in one line, after its opening brace or a comma. -/
def readEntries? (item : Reader Value) : Nat → Node.Entries → Reader Node.Entries
  | 0, _, _ => none
  | n + 1, entries, s => do
    let ((path, name, v), s) ← readAssignment? item s
    let entries ← Node.assign path name v entries
    match s with
    | ',' :: r => readEntries? item n entries r
    | '\x7d' :: r => return (entries, r)
    | _ => none

/-- A value that nests less deep than the first argument. -/
def readValue? : Nat → Reader Value
  | 0, s =>
    match s with
    | '[' :: _ => none
    | '\x7b' :: _ => none
    | _ => readScalar? s
  | depth + 1, s =>
    match s with
    | '[' :: r => (readItems? (readValue? depth) (r.length + 1) [] r).map fun (v, r) => (.array v, r)
    | '\x7b' :: r =>
      match skipSpace r with
      | '\x7d' :: r => some (.table [], r)
      | r =>
        (readEntries? (readValue? depth) (r.length + 1) [] r).map fun (entries, r) =>
          (Node.toValue (.table .opened entries), r)
    | _ => readScalar? s

/-- Assigns a key in the table that was opened last. -/
def assignIn (opened : List String) (path : List String) (name : String) (v : Value)
    (root : Node.Entries) : Option Node.Entries :=
  Node.descend false (fun _ entries => Node.assign path name v entries) opened .opened root

/-- What follows the end of a line: a comment and the line end, if the text does not end there. -/
def afterLine? (s : List Char) : Option (List Char) :=
  let rest := match skipSpace s with
    | '#' :: r => r.dropWhile isText
    | s => s
  match rest with
  | [] => some []
  | _ => afterNewline? rest

/-- Reads the lines of a document; `opened` is the path of the table that was opened last. -/
def readLines? : Nat → List String → Node.Entries → List Char → Option Node.Entries
  | 0, _, _, _ => none
  | n + 1, opened, root, s => do
    let s ← skipLines (s.length + 1) s
    match s with
    | [] => return root
    | '[' :: '[' :: r =>
      let (parts, r) ← readKey? nesting r
      let (path, name) ← splitKey parts
      let r ← after? [']', ']'] r
      readLines? n parts (← Node.openItem path name root) (← afterLine? r)
    | '[' :: r =>
      let (parts, r) ← readKey? nesting r
      let (path, name) ← splitKey parts
      let r ← after? [']'] r
      readLines? n parts (← Node.openTable path name root) (← afterLine? r)
    | _ =>
      let ((path, name, v), r) ← readAssignment? (readValue? (nesting)) s
      readLines? n opened (← assignIn opened path name v root) (← afterLine? r)

/-- The entries of a document. A byte order mark may stand at its front. -/
def parse? (text : String) : Option Entries :=
  let chars := match text.toList with
    | '\ufeff' :: r => r
    | s => s
  (readLines? (chars.length + 1) [] [] chars).map Node.entryValues

end ProofWalk.Toml
