import ProofWalk.Config.Basic
import ProofWalk.Files
import ProofWalk.Toml.Reader

/-!
# Configuration files

A configuration is kept as a document with a section for the options of the walks and one for those
of the learner. An option that the file does not name has its default, and names that are no option
are passed over. A section may also be written as the array of its values in order, or as a moment,
which leaves all its options at their defaults.

## Main definitions

* `Config.ofEntries?`, `Config.document?` — the document of a configuration
* `Config.load`, `Config.save`
-/

namespace ProofWalk

open Toml (Value Entries)

namespace Config

/-- A number of steps or of things. -/
def countOf? : Value → Option Nat
  | .integer (.ofNat n) => some n
  | _ => none

/-- A number, written as a float or as an integer. -/
def numberOf? : Value → Option Float
  | .float x => some x
  | .integer n => some (Float.ofInt n)
  | _ => none

/-- A text. -/
def textOf? : Value → Option String
  | .text s => some s
  | _ => none

/-- A truth value. -/
def booleanOf? : Value → Option Bool
  | .boolean b => some b
  | _ => none

/-- A list of texts. -/
def textsOf? : Value → Option (List String)
  | .array items => items.mapM textOf?
  | _ => none

/-- The option of a name, or its default. -/
def option? {α : Type} (read : Value → Option α) (entries : Entries) (name : String)
    (standard : α) : Option α :=
  match entries.lookup name with
  | none => some standard
  | some v => read v

/-- An option that has no default but absence. -/
def optional? {α : Type} (read : Value → Option α) (entries : Entries) (name : String)
    (standard : Option α) : Option (Option α) :=
  option? (fun v => (read v).map some) entries name standard

/-- The options of a walk in their order. -/
def walkNames : List String :=
  ["alpha", "epsilon", "max_depth", "stay_probability", "max_tree_depth"]

/-- The options of a walk. -/
def walkOfEntries? (e : Entries) : Option (WalkOptions Float) := do
  let d := WalkOptions.standard
  return {
    alpha := ← option? numberOf? e "alpha" d.alpha
    epsilon := ← option? numberOf? e "epsilon" d.epsilon
    maxDepth := ← option? countOf? e "max_depth" d.maxDepth
    stay := ← option? numberOf? e "stay_probability" d.stay
    maxTreeDepth := ← optional? countOf? e "max_tree_depth" d.maxTreeDepth }

/-- The options of the learner in their order. -/
def learningNames : List String :=
  ["mu", "eta", "delta", "zeta", "affinity_file", "squashing_function", "regularizer", "schedule",
    "loss", "learner", "seed"]

/-- The options of the learner. -/
def learningOfEntries? (e : Entries) : Option LearningOptions := do
  let d : LearningOptions := {}
  return {
    mu := ← option? numberOf? e "mu" d.mu
    eta := ← option? numberOf? e "eta" d.eta
    delta := ← option? numberOf? e "delta" d.delta
    zeta := ← option? numberOf? e "zeta" d.zeta
    affinityFile := ← optional? textOf? e "affinity_file" d.affinityFile
    squash := ← option? textOf? e "squashing_function" d.squash
    regularizer := ← option? textOf? e "regularizer" d.regularizer
    schedule := ← option? textOf? e "schedule" d.schedule
    loss := ← option? textOf? e "loss" d.loss
    learner := ← option? textOf? e "learner" d.learner
    seed := ← optional? countOf? e "seed" d.seed }

/-- The entries of a section, given as a table or as an array. A moment counts as a table of its own,
in which no option is named. -/
def sectionOf? (names : List String) : Value → Option Entries
  | .table entries => some entries
  | .array items => some (names.zip items)
  | .moment => some []
  | _ => none

/-- The configuration of a document. -/
def ofEntries? (e : Entries) : Option Config := do
  let d : Config := {}
  let walk ← option? (sectionOf? walkNames) e "apr" []
  let learning ← option? (sectionOf? learningNames) e "srw" []
  return {
    walk := ← walkOfEntries? walk
    learning := ← learningOfEntries? learning
    programs := ← option? textsOf? e "programs" d.programs
    prover := ← option? textOf? e "prover" d.prover
    threads := ← option? countOf? e "threads" d.threads
    throttle := ← optional? countOf? e "throttle" d.throttle
    keepOrder := ← option? booleanOf? e "maintain_order" d.keepOrder
    epochs := ← option? countOf? e "epochs" d.epochs
    stoppingPercent := ← option? numberOf? e "stopping_percent" d.stoppingPercent
    stoppingEpochs := ← option? countOf? e "stopping_epoch" d.stoppingEpochs
    includeUnlabelled := ← option? booleanOf? e "include_unlabeled" d.includeUnlabelled
    fixedWeights := ← optional? textOf? e "fixed_weights" d.fixedWeights
    graphKey := ← optional? textOf? e "graph_key" d.graphKey
    normalize := ← option? booleanOf? e "normalize" d.normalize
    topK := ← optional? countOf? e "top_k" d.topK }

/-- The entry of an option that may be absent. -/
def present {α : Type} (name : String) (write : α → Value) (x : Option α) : Entries :=
  x.toList.map fun x => (name, write x)

/-- A count as a value. -/
def count (n : Nat) : Value := .integer n

/-- The entries of the options of a walk. -/
def walkEntries (o : WalkOptions Float) : Entries :=
  [("alpha", .float o.alpha), ("epsilon", .float o.epsilon), ("max_depth", count o.maxDepth),
    ("stay_probability", .float o.stay)] ++ present "max_tree_depth" count o.maxTreeDepth

/-- The entries of the options of the learner. -/
def learningEntries (o : LearningOptions) : Entries :=
  [("mu", .float o.mu), ("eta", .float o.eta), ("delta", .float o.delta), ("zeta", .float o.zeta)] ++
    present "affinity_file" .text o.affinityFile ++
    [("squashing_function", .text o.squash), ("regularizer", .text o.regularizer),
      ("schedule", .text o.schedule), ("loss", .text o.loss), ("learner", .text o.learner)] ++
    present "seed" count o.seed

/-- The entries of a configuration outside its sections. -/
def entries (c : Config) : Entries :=
  [("programs", .array (c.programs.map .text)), ("prover", .text c.prover),
    ("threads", count c.threads)] ++
    present "throttle" count c.throttle ++
    [("maintain_order", .boolean c.keepOrder), ("epochs", count c.epochs),
      ("stopping_percent", .float c.stoppingPercent), ("stopping_epoch", count c.stoppingEpochs),
      ("include_unlabeled", .boolean c.includeUnlabelled)] ++
    present "fixed_weights" .text c.fixedWeights ++ present "graph_key" .text c.graphKey ++
    [("normalize", .boolean c.normalize)] ++ present "top_k" count c.topK

/-- The document of a configuration; one with a count that is no signed word has none. -/
def document? (c : Config) : Option String :=
  Toml.writeDocument? c.entries
    [("apr", walkEntries c.walk), ("srw", learningEntries c.learning)]

/-- Reads and validates a configuration. -/
def load {m : Type → Type} [Monad m] [Files m] (path : String) : ExceptT Error m Config := do
  match ← Files.read? (m := m) path with
  | none => throw (.configFile path)
  | some text =>
    match (Toml.parse? text).bind ofEntries? with
    | none => throw (.configSyntax path)
    | some c =>
      match c.validate with
      | .ok () => pure c
      | .error e => throw e

/-- Writes a configuration. -/
def save {m : Type → Type} [Monad m] [Files m] (c : Config) (path : String) :
    ExceptT Error m Unit := do
  match c.document? with
  | none => throw (.configSyntax path)
  | some text => if ← Files.write (m := m) path text then pure () else throw (.configFile path)

end Config

end ProofWalk
