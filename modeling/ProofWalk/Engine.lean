import ProofWalk.Answer
import ProofWalk.Bytecode.Compiler
import ProofWalk.Grounding.Basic
import ProofWalk.Learning.GradientFinder
import ProofWalk.Relation.Basic

/-!
# The engine

A configuration with the program and the relations that it names, and the current parameters. The
engine grounds, answers, trains and differentiates whole files.

## Main definitions

* `Engine.new` — validates a configuration and loads its files
* `Engine.ground`, `Engine.answer`, `Engine.train`, `Engine.gradient`
* `compileFile` — from rules to bytecode
-/

namespace ProofWalk

/-- A configuration with what it names, and the current parameters. -/
structure Engine where
  config : Config
  program : Program
  relations : List Relation
  parameters : Parameters Float

namespace Engine

/-- Whether a path names a program. -/
def isProgram (path : String) : Bool := fileExtension path == "ppr" || fileExtension path == "wam"

/-- The program and the relations of files. There is at most one program; without any it is
empty. -/
def loadFiles {m : Type → Type} [Monad m] [Files m] (paths : List String) :
    ExceptT Error m (Program × List Relation) := do
  let program ←
    match paths.filter isProgram with
    | [] => pure .empty
    | [path] => if fileExtension path == "ppr" then Program.loadRules path else Program.load path
    | first :: second :: _ => throw (.multiplePrograms first second)
  return (program, ← Loader.registry.load (paths.filter fun path => !isProgram path))

/-- The engine of a configuration, without parameters. -/
def new {m : Type → Type} [Monad m] [Files m] (config : Config) : ExceptT Error m Engine := do
  match config.validate with
  | .error e => throw e
  | .ok () =>
    let (program, relations) ← loadFiles config.programs
    return { config, program, relations, parameters := .empty }

/-- The engine with the parameters of a file. -/
def loadParameters {m : Type → Type} [Monad m] [Files m] (e : Engine) (path : String) :
    ExceptT Error m Engine :=
  return { e with parameters := ← Parameters.load path }

/-- The prover of the configuration, which weights edges by the current parameters. -/
def prover (e : Engine) : Except Error (Prover Float) := do
  let squash ← Squash.ofName? e.config.learning.squash
  Prover.ofName? e.config.prover e.config.walk { parameters := e.parameters, squash }

/-- The pipeline of the configuration. -/
def pipeline (e : Engine) : Pipeline := .ofConfig e.config

/-- Grounds the examples of a file. -/
def ground {m : Type → Type} [Monad m] [Files m] (e : Engine) (data grounded : String) :
    ExceptT Error m GroundingStatistics := do
  let grounder : Grounder :=
    { program := e.program, relations := e.relations
      includeUnlabelled := e.config.includeUnlabelled, nodesFile := e.config.graphKey }
  grounder.openNodesFile
  match e.prover with
  | .error err => throw err
  | .ok p => return (← grounder.groundFile p e.pipeline data grounded).1

/-- Answers the queries of a file. -/
def answer {m : Type → Type} [Monad m] [Files m] [Clock m] (e : Engine) (queries solutions : String) :
    ExceptT Error m TaskCounts :=
  match e.prover with
  | .error err => throw err
  | .ok p =>
    let answerer : Answerer :=
      { program := e.program, relations := e.relations
        normalize := e.config.normalize, top := e.config.topK }
    answerer.answerFile p e.pipeline queries solutions

/-- Trains the current parameters on a grounded file. They stay as they were changed also when the
run fails. -/
def train {m : Type → Type} [Monad m] [Files m] [Clock m] (e : Engine) (grounded : String) :
    m (Except Error (TrainingReport Float) × Engine) := do
  match ← (Trainer.ofConfig (m := m) e.config).run with
  | .error err => return (.error err, e)
  | .ok trainer =>
    let (r, parameters) ← trainer.train grounded e.parameters
    return (r, { e with parameters })

/-- Writes the gradient of a grounded file at the current parameters. -/
def gradient {m : Type → Type} [Monad m] [Files m] (e : Engine) (grounded out : String) :
    ExceptT Error m TaskCounts := do
  (← GradientFinder.ofConfig e.config).write grounded e.parameters out

/-- What an engine holds, for its user. -/
def info (e : Engine) : String :=
  let relations := ", ".intercalate (e.relations.map (·.about))
  let learner := e.config.learning.learner
  "\n".intercalate [
    "proppr engine",
    s!"  instructions: {e.program.size}",
    s!"  plugins:      {relations}",
    s!"  parameters:   {e.parameters.size}",
    s!"  prover:       {e.config.prover}",
    s!"  learner:      {learner}"]

end Engine

/-- Compiles a file of rules to a file of bytecode. Gives the number of instructions. -/
def compileFile {m : Type → Type} [Monad m] [Files m] (source out : String) :
    ExceptT Error m Nat := do
  let program ← Program.loadRules source
  program.save out
  return program.size

end ProofWalk
