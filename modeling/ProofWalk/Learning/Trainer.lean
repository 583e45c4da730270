import ProofWalk.Grounding.Basic
import ProofWalk.Json
import ProofWalk.Learning.Learner
import ProofWalk.Parameters.File
import ProofWalk.Pipeline.Basic

/-!
# Training runs

An epoch trains on every line of a grounded file. Lines that cannot be read or trained on are counted
and passed over. A run is a number of epochs; it stops when its criterion is met, or after an epoch
without any usable example. The criterion is a number of epochs, or several epochs in a row that improve
by less than a percentage.

## Main definitions

* `Stopping` — the criterion
* `EpochReport`, `TrainingReport`, `TrainingReport.document`
* `Trainer.epoch`, `Trainer.epochs` — over the lines of a file
* `Trainer.train` — over a file
-/

namespace ProofWalk

/-! ### Stopping -/

/-- When training stops, with the epochs counted so far and those in a row that improved too
little. A window of zero never stops training. -/
structure Stopping (K : Type) where
  maxEpochs : Nat
  percent : K
  window : Nat
  epochs : Nat
  stalled : Nat

namespace Stopping

variable {K : Type} [Scalar K]

/-- No epoch has been counted. -/
def new (maxEpochs : Nat) (percent : K) (window : Nat) : Stopping K :=
  { maxEpochs, percent, window, epochs := 0, stalled := 0 }

/-- The criterion of a configuration. -/
def ofConfig (c : Config) : Stopping K :=
  new c.epochs (Scalar.ofFloat c.stoppingPercent) c.stoppingEpochs

/-- Counts an epoch. -/
def addEpoch (s : Stopping K) : Stopping K := { s with epochs := s.epochs + 1 }

/-- Takes note of the percentage by which an epoch improved on the one before. -/
def addImprovement (s : Stopping K) (percent : K) : Stopping K :=
  { s with stalled := if percent < s.percent then s.stalled + 1 else 0 }

/-- Whether training stops. -/
def isSatisfied (s : Stopping K) : Bool :=
  s.maxEpochs ≤ s.epochs || (0 < s.window && s.window ≤ s.stalled)

end Stopping

/-! ### Runs -/

/-- The totals of an epoch, the times in milliseconds, and by how much the loss improved on the
epoch before. -/
structure EpochReport (K : Type) where
  epoch : Nat
  examples : Nat
  failed : Nat
  logLoss : K
  regLoss : K
  zeroGradients : Nat
  nodes : Nat
  edges : Nat
  parseTime : Nat
  trainTime : Nat
  wallTime : Nat
  improvement : Option K
  percent : Option K

/-- The reports of the epochs of a run, in order. -/
structure TrainingReport (K : Type) where
  epochs : List (EpochReport K)

namespace EpochReport

variable {K : Type} [Scalar K]

/-- An epoch in front of its first example. -/
def zero (epoch : Nat) : EpochReport K :=
  { epoch, examples := 0, failed := 0, logLoss := 0, regLoss := 0, zeroGradients := 0, nodes := 0
    edges := 0, parseTime := 0, trainTime := 0, wallTime := 0, improvement := none, percent := none }

/-- Adds what an example contributed and how long it took to read and to train. -/
def add (r : EpochReport K) (x : ExampleResult K) (parseTime trainTime : Nat) : EpochReport K :=
  { r with
    examples := r.examples + 1
    logLoss := r.logLoss + x.logLoss
    regLoss := r.regLoss + x.regLoss
    zeroGradients := r.zeroGradients + if x.zeroGradient then 1 else 0
    nodes := r.nodes + x.nodes
    edges := r.edges + x.edges
    parseTime := r.parseTime + parseTime
    trainTime := r.trainTime + trainTime }

/-- The loss of an epoch. -/
def loss (r : EpochReport K) : K := r.logLoss + r.regLoss

/-- The loss for each example. -/
def averageLoss (r : EpochReport K) : K :=
  if r.examples = 0 then 0 else r.loss / Scalar.ofNat r.examples

/-- Tells how an epoch improved on the one before; there is no percentage of a loss of zero. -/
def compare (r : EpochReport K) (before : Option (EpochReport K)) : EpochReport K :=
  match before with
  | none => r
  | some b =>
    let improvement := b.loss - r.loss
    { r with
      improvement := some improvement
      percent :=
        if b.loss != 0 then some (Scalar.ofNat 100 * improvement / b.loss) else none }

end EpochReport

namespace TrainingReport

variable {K : Type} [Scalar K]

/-- The report of the last epoch. -/
def last? (r : TrainingReport K) : Option (EpochReport K) := r.epochs.getLast?

/-- The report with another epoch. -/
def add (r : TrainingReport K) (e : EpochReport K) : TrainingReport K :=
  { epochs := r.epochs ++ [e.compare r.last?] }

end TrainingReport

/-- What trains: a learner, a pipeline and when to stop. -/
structure Trainer (K : Type) where
  learner : Learner K
  pipeline : Pipeline
  stopping : Stopping K

/-- The pipeline of a configuration. -/
def Pipeline.ofConfig (c : Config) : Pipeline := .new c.workers c.inFlight c.keepOrder

/-- The table of features beside a grounded file, if there is one. -/
def featureIndex {m : Type → Type} [Monad m] [Files m] (grounded : String) :
    ExceptT Error m (Option FeatureTable) := do
  let path := Grounder.featuresFile grounded
  match ← Files.read? (m := m) path with
  | none => return none
  | some _ => return some (← FeatureTable.load path)

/-- The lines of work of a grounded file. -/
def groundedLines {m : Type → Type} [Monad m] [Files m] (grounded : String) :
    ExceptT Error m (List String) := do
  match ← Files.read? (m := m) grounded with
  | none => throw (.learnFile grounded)
  | some text => return Pipeline.workLines text

namespace Trainer

variable {K : Type} [Scalar K]

/-- The trainer that a configuration describes. -/
def ofConfig {m : Type → Type} [Monad m] [Files m] (c : Config) : ExceptT Error m (Trainer K) :=
  return {
    learner := ← Learner.ofConfig c
    pipeline := .ofConfig c
    stopping := .ofConfig c }

/-- The work on a line: reads it, gives its features their first weights and trains on it. -/
def work {m : Type → Type} [Monad m] [Clock m] (index : Option FeatureTable) (epoch : Nat) :
    Pipeline.Work m String (ExampleResult K × Nat × Nat) (Training K) := fun _ line t => do
  let started ← Clock.milliseconds
  match TrainingExample.parse? line index with
  | .error e => pure (.error e, t)
  | .ok e =>
    let parsed ← Clock.milliseconds
    let (r, t) := (t.introduce e.graph).step e epoch
    let trained ← Clock.milliseconds
    pure (r.map fun x => some (x, parsed - started, trained - parsed), t)

/-- An epoch over the lines of a file. -/
def epoch {m : Type → Type} [Monad m] [Clock m] (p : Pipeline) (index : Option FeatureTable)
    (lines : List String) (number : Nat) (t : Training K) :
    m (Except Error (EpochReport K) × Training K) := do
  let started ← Clock.milliseconds
  let (r, t, report) ← p.run (work index number)
    (fun _ (x, parseTime, trainTime) (report : EpochReport K) =>
      (.ok (), report.add x parseTime trainTime)) t (EpochReport.zero number) lines
  match r with
  | .error e => pure (.error e, t)
  | .ok counts =>
    let (loss, t) := t.endEpoch number
    let ended ← Clock.milliseconds
    pure (.ok { report with
      regLoss := report.regLoss + loss
      failed := counts.failed
      wallTime := ended - started }, t)

/-- At most `limit` epochs over the lines of a file, up to the one that meets the criterion or has no
usable example. -/
def epochs {m : Type → Type} [Monad m] [Clock m] (p : Pipeline) (index : Option FeatureTable)
    (lines : List String) :
    Nat → Stopping K → TrainingReport K → Training K →
      m (Except Error (TrainingReport K) × Training K)
  | 0, _, report, t => pure (.ok report, t)
  | limit + 1, stopping, report, t => do
    if stopping.isSatisfied then pure (.ok report, t)
    else
      let (r, t) ← epoch p index lines (stopping.epochs + 1) t
      match r with
      | .error e => pure (.error e, t)
      | .ok e =>
        let report := report.add e
        if e.examples = 0 then pure (.ok report, t)
        else
          let stopping := stopping.addEpoch
          match report.last?.bind (·.percent) with
          | none => epochs p index lines limit stopping report t
          | some percent => epochs p index lines limit (stopping.addImprovement percent) report t

/-- Trains parameters on a grounded file. The parameters stay as they were changed also when the run
fails. -/
def train {m : Type → Type} [Monad m] [Files m] [Clock m] (r : Trainer K) (grounded : String)
    (p : Parameters K) : m (Except Error (TrainingReport K) × Parameters K) := do
  match ← (featureIndex (m := m) grounded).run with
  | .error e => return (.error e, p)
  | .ok index =>
    if r.stopping.isSatisfied then return (.ok { epochs := [] }, p)
    match ← (groundedLines (m := m) grounded).run with
    | .error e => return (.error e, p)
    | .ok lines =>
      let (result, t) ← epochs r.pipeline index lines r.stopping.maxEpochs r.stopping { epochs := [] }
        { learner := r.learner.copy.1, parameters := p }
      return (result, t.parameters)

end Trainer

/-! ### Reports as documents -/

/-- The document of an epoch. -/
def EpochReport.document (r : EpochReport Float) : Json :=
  .object [
    ("epoch", .count r.epoch),
    ("examples", .count r.examples),
    ("failed", .count r.failed),
    ("log_loss", .number r.logLoss),
    ("reg_loss", .number r.regLoss),
    ("zero_gradients", .count r.zeroGradients),
    ("nodes", .count r.nodes),
    ("edges", .count r.edges),
    ("parse_ms", .count r.parseTime),
    ("train_ms", .count r.trainTime),
    ("wall_ms", .count r.wallTime),
    ("improvement", .optional r.improvement),
    ("percent_improvement", .optional r.percent)]

/-- The document of a run. -/
def TrainingReport.document (r : TrainingReport Float) : Json :=
  .object [("epochs", .array (r.epochs.map (·.document)))]

end ProofWalk
