import ProofWalk.Relation.FactTable
import ProofWalk.Relation.EdgeTable
import ProofWalk.Registry

/-!
# Relations

A relation answers calls that the rules do not define: it claims the predicates it knows and looks
up the rows that agree with the bound arguments of a call.

Files of relations are told apart by their extension. All files of one extension become one
relation, in the order in which their extensions are first met, and the builtin filters come last.

## Main definitions

* `Relation` — the kinds of relation
* `Relation.claims`, `Relation.lookup`
* `Relation.about` — what a relation is, for a log
* `Loader` — what becomes of the files of an extension
* `Loader.registry` — the extensions that are known
* `Registry.load` — the relations of files
-/

namespace ProofWalk

-- sums of numbers are those of the core library
attribute [local instance (2000)] Zero.ofOfNat0

/-- The kinds of relation: a fact table, several fact tables answering as one, an edge table, the
builtin filters, and fixed rows for one predicate. -/
inductive Relation where
  | facts (table : FactTable)
  | splitFacts (parts : List FactTable)
  | edges (table : EdgeTable)
  | filters
  | fixed (label : String) (rows : List Row)

namespace Relation

/-- The predicate of the builtin filter: two constants differ. -/
def differ : String := "neq/2"

/-- The feature that labels the answer of a builtin filter. -/
def builtinFeature : String := "builtin"

/-- What a relation is, for a log. -/
def about : Relation → String
  | facts t => t.about
  | splitFacts parts =>
    let facts := (parts.map fun t => t.size).sum
    s!"{parts.length} fact files ({facts} facts)"
  | edges t => t.about
  | filters => "builtin filters"
  | fixed label _ => label

/-- Whether a relation answers a predicate. -/
def claims (r : Relation) (label : String) : Bool :=
  match r with
  | facts t => t.claims label
  | splitFacts parts => parts.any (·.claims label)
  | edges t => t.claims label
  | filters => label == differ
  | fixed l _ => label == l

/-- The answer of the filter on constants: the call itself when its first two arguments differ. The
filter reads two arguments whatever the call holds. -/
def filterRows : List String → Except Error (List Row)
  | a :: b :: rest =>
    if a = b then .ok []
    else .ok [{ values := a :: b :: rest, features := .single builtinFeature 1 }]
  | _ => .error .indexOutOfBounds

/-- The rows of a predicate that agree with a call. A filter answers only when every argument is
bound. -/
def lookup (r : Relation) (label : String) (args : CallArgs) : Except Error (List Row) :=
  match r with
  | facts t => .ok (t.lookup label args)
  | splitFacts parts =>
    .ok ((parts.filter (·.claims label)).flatMap fun t => t.lookup label args)
  | edges t => .ok (t.lookup label args)
  | filters =>
    if label == differ then
      match args.mapM id with
      | some values => filterRows values
      | none => .ok []
    else .ok []
  | fixed l rows => .ok (if label == l then rows else [])

end Relation

/-! ### Loading -/

/-- What becomes of the files of an extension. -/
inductive Loader where
  | splitFacts
  | edges
  | filters
deriving Repr, DecidableEq

namespace Loader

/-- The relation of files. -/
def load {m : Type → Type} [Monad m] [Files m] (paths : List String) :
    Loader → ExceptT Error m Relation
  | splitFacts => return .splitFacts (← paths.mapM fun path => FactTable.load path)
  | edges => return .edges (← EdgeTable.load paths)
  | filters => return .filters

/-- The extensions of fact tables and of edge tables. -/
def registry : Registry Loader := (Registry.empty.register "cfacts" splitFacts).register "graph" edges

end Loader

namespace Registry

/-- Paths by their extension, in the order in which extensions are first met. -/
def byExtension (paths : List String) : List (String × List String) :=
  (paths.map fileExtension).eraseDups.map fun extension =>
    (extension, paths.filter fun path => fileExtension path == extension)

/-- The relations of files, with the builtin filters last. Every extension has to be known. -/
def load {m : Type → Type} [Monad m] [Files m] (r : Registry Loader) (paths : List String) :
    ExceptT Error m (List Relation) := do
  match paths.find? fun path => !r.handles (fileExtension path) with
  | some path => throw (.unsupportedFile path)
  | none =>
    let relations ← (byExtension paths).filterMapM fun (extension, files) =>
      match r.find? extension with
      | some loader => some <$> loader.load files
      | none => pure none
    return relations ++ [.filters]

end Registry

end ProofWalk
