import ProofWalk.CommandLine.Arguments
import ProofWalk.Config.File
import ProofWalk.Config.Basic
import ProofWalk.Engine
import ProofWalk.Learning.Trainer

/-!
# The command line

The program compiles rules, grounds examples, trains weights, answers queries and writes gradients.
Options that all commands share stand before the command or behind it, where they win. A run prints
a line or two on what it did; its exit code is 1 if it failed, 2 if its arguments are wrong and 101 if
an error stopped it that nothing handles.

## Main definitions

* `SharedOptions`, `Command`, `Invocation`
* `Invocation.parse` — from arguments
* `Command.perform`, `run` — over any monad with files and a clock
-/

namespace ProofWalk.CommandLine

/-- The options that all commands share. -/
structure SharedOptions where
  config : Option String
  threads : Option Nat
  walk : Option String
  programs : List String
  prover : Option String
  squash : Option String

/-- What is to be done. -/
inductive Command where
  | compile (source : String) (out : Option String)
  | ground (queries grounded : String) (params : Option String) (includeUnlabelled : Bool)
      (graphKey : Option String)
  | train (grounded params : String) (initial : Option String) (epochs : Option Nat)
      (learning fixed stats : Option String)
  | answer (queries solutions : String) (params : Option String) (topK : Option Nat)
      (unnormalized : Bool)
  | gradient (grounded out : String) (params learning : Option String)

/-- A command with the options that all commands share. -/
structure Invocation where
  shared : SharedOptions
  command : Command

/-- The shared options by name. -/
def sharedOptions : Options :=
  [("config", .path), ("threads", .count), ("apr", .text), ("programs", .paths), ("prover", .text),
    ("squash", .text)]

/-- The options of each command by name. -/
def commandOptions : List (String × Options) :=
  [("compile", [("out", .path)]),
    ("ground", [("queries", .path), ("grounded", .path), ("params", .path),
      ("include-unlabeled", .switch), ("graph-key", .path)]),
    ("train", [("grounded", .path), ("params", .path), ("init-params", .path), ("epochs", .count),
      ("srw", .text), ("fixed-weights", .text), ("stats", .path)]),
    ("answer", [("queries", .path), ("solutions", .path), ("params", .path), ("top-k", .count),
      ("unnormalized", .switch)]),
    ("gradient", [("grounded", .path), ("out", .path), ("params", .path), ("srw", .text)])]

/-- The command of a name with what has been given to it. -/
def Command.ofReading (name : String) (r : Reading) : Except Interruption Command := do
  match name with
  | "compile" =>
    match r.positional.head? with
    | none => throw .usage
    | some source => return .compile source (r.value? "out")
  | "ground" =>
    return .ground (← r.required "queries") (← r.required "grounded") (r.value? "params")
      (r.has "include-unlabeled") (r.value? "graph-key")
  | "train" =>
    return .train (← r.required "grounded") (← r.required "params") (r.value? "init-params")
      (r.count? "epochs") (r.value? "srw") (r.value? "fixed-weights") (r.value? "stats")
  | "answer" =>
    return .answer (← r.required "queries") (← r.required "solutions") (r.value? "params")
      (r.count? "top-k") (r.has "unnormalized")
  | "gradient" =>
    return .gradient (← r.required "grounded") (← r.required "out") (r.value? "params")
      (r.value? "srw")
  | _ => throw .usage

/-- The shared options that have been given. -/
def SharedOptions.ofReading (r : Reading) : SharedOptions :=
  { config := r.value? "config", threads := r.count? "threads", walk := r.value? "apr"
    programs := r.values "programs", prover := r.value? "prover", squash := r.value? "squash" }

/-- Whether a name is that of a command. -/
def isCommand (name : String) : Bool := name == "help" || commandOptions.any (·.1 == name)

/-- Help is asked for on the program, or on one command. -/
def helpRequest : List String → Interruption
  | [] => .help
  | [name] => if isCommand name then .help else .usage
  | _ => .usage

/-- Reads the arguments of the program. -/
def Invocation.parse (arguments : List String) : Except Interruption Invocation := do
  let (before, rest) ← readArguments sharedOptions true 0 isCommand .empty arguments
  match rest with
  | [] => throw .usage
  | "help" :: topic => throw (helpRequest topic)
  | name :: rest =>
    let options := ((commandOptions.lookup name).getD []) ++ sharedOptions
    let room := if name == "compile" then 1 else 0
    let (own, _) ← readArguments options false room (fun _ => false) .empty rest
    let command ← Command.ofReading name own
    return { shared := .ofReading (before.override own), command }

/-- The configuration of shared options: the defaults, or what a file holds, with what the options
say in their place. -/
def SharedOptions.configuration {m : Type → Type} [Monad m] [Files m] (o : SharedOptions) :
    ExceptT Error m Config := do
  let c ← match o.config with
    | some path => Config.load path
    | none => pure {}
  let c := { c with threads := o.threads.getD c.threads }
  let c ← match o.walk with
    | none => pure c
    | some spec =>
      match c.walk.override spec with
      | (.error e, _) => throw e
      | (.ok (), walk) => pure { c with walk }
  return { c with
    programs := if o.programs.isEmpty then c.programs else o.programs
    prover := o.prover.getD c.prover
    learning := { c.learning with squash := o.squash.getD c.learning.squash } }

/-- The configuration with overrides of the options of the learner. -/
def withLearning (c : Config) (spec : Option String) : Except Error Config :=
  match spec with
  | none => .ok c
  | some spec =>
    match c.learning.override spec with
    | (.error e, _) => .error e
    | (.ok (), learning) => .ok { c with learning }

variable {m : Type → Type} [Monad m] [Files m] [Clock m]

/-- The engine of a configuration, with the parameters of a file if one is given. -/
def engine (c : Config) (params : Option String) : ExceptT Error m Engine := do
  let e ← Engine.new c
  match params with
  | none => return e
  | some path => e.loadParameters path

/-- Trains and writes the parameters, and the report if it is asked for. -/
def trainFile (c : Config) (grounded params : String) (initial stats : Option String) :
    ExceptT Error m (List String) := do
  let (r, e) ← ((← engine c initial).train grounded : m _)
  match r with
  | .error err => throw err
  | .ok report =>
    e.parameters.save params
    match stats with
    | none => pure ()
    | some path => if !(← Files.write (m := m) path report.document.pretty) then throw (.learnFile path)
    match report.last? with
    | none => return [s!"No epochs ran; {params} left untouched"]
    | some last =>
      let count := report.epochs.length
      let loss := Decimal.fixedPlaces 6 last.averageLoss
      return [s!"Trained {count} epochs; final average loss {loss}; " ++
        s!"{e.parameters.size} parameters written to {params}"]

/-- Does what a command says and tells what it did. -/
def Command.perform (c : Config) : Command → ExceptT Error m (List String)
  | .compile source out => do
    let out := out.getD (withExtension source "wam")
    let count ← compileFile source out
    return [s!"Compiled {source} to {out} ({count} instructions)"]
  | .ground queries grounded params includeUnlabelled graphKey => do
    let e ← engine { c with
      includeUnlabelled := c.includeUnlabelled || includeUnlabelled
      graphKey := graphKey.or c.graphKey } params
    let s ← e.ground queries grounded
    return [
      s!"Grounded {s.written} of {s.examples} examples into {grounded}",
      s!"  positives covered: {s.coveredPos}/{s.totalPos}, " ++
        s!"negatives covered: {s.coveredNeg}/{s.totalNeg}"]
  | .train grounded params initial epochs learning fixed stats => do
    match withLearning { c with epochs := epochs.getD c.epochs } learning with
    | .error e => throw e
    | .ok c =>
      trainFile { c with fixedWeights := fixed.or c.fixedWeights } grounded params initial stats
  | .answer queries solutions params topK unnormalized => do
    let e ← engine { c with
      topK := topK.or c.topK
      normalize := c.normalize && !unnormalized } params
    let counts ← e.answer queries solutions
    return [s!"Answered {counts.emitted} of {counts.submitted} queries into {solutions}"]
  | .gradient grounded out params learning => do
    match withLearning c learning with
    | .error e => throw e
    | .ok c =>
      let counts ← (← engine c params).gradient grounded out
      return [s!"Gradient over {counts.emitted} examples written to {out}"]

/-- The version of the program. -/
def version : String := "proppr 0.3.0"

/-- How the program is used. -/
def usage : List String :=
  ["Usage: proppr [OPTIONS] <COMMAND>", "",
    "Commands: " ++ ", ".intercalate (commandOptions.map (·.1)),
    "Options:  " ++ ", ".intercalate (sharedOptions.map fun o => "--" ++ o.1)]

/-- How a run ended: its exit code, the lines of its output, and those of its complaint. -/
structure Ending where
  code : Nat
  output : List String
  complaint : List String

/-- Runs the program with arguments. -/
def run (arguments : List String) : m Ending := do
  match Invocation.parse arguments with
  | .error .help => return { code := 0, output := usage, complaint := [] }
  | .error .version => return { code := 0, output := [version], complaint := [] }
  | .error .usage => return { code := 2, output := [], complaint := usage }
  | .ok invocation =>
    let work : ExceptT Error m (List String) := do
      invocation.command.perform (← invocation.shared.configuration)
    match ← work.run with
    | .ok lines => return { code := 0, output := lines, complaint := [] }
    | .error e =>
      let code := if e.stops then 101 else 1
      return { code, output := [], complaint := [s!"Error: {e.code}: {e.message}"] }

end ProofWalk.CommandLine
