import ProofWalk.Decimal.Reader
import ProofWalk.Prover.Options
import ProofWalk.Scalar
import ProofWalk.Text.Lines
import ProofWalk.Text.Numeral

/-!
# Configuration

What a run is told: the options of the walks and of the learner, the program files, and how the
work is done. Components are chosen by name, and a name is checked only when the configuration is
validated.

Options may be given anew as `name=value`, with a colon between them. All are taken apart before the
first is assigned. They are assigned from left to right up to the first that fails, and what was
assigned before it stays.

## Main definitions

* `LearningOptions`, `Config` — with their defaults
* `Config.validate` — the names are known and the options of the walks are within bounds
* `Config.workers`, `Config.inFlight` — how many tasks run and wait at a time
* `Overrides.items?` — names and values of options given anew
* `WalkOptions.override`, `LearningOptions.override`
-/

namespace ProofWalk

/-- The options of a walk that nothing else is said about. -/
def WalkOptions.standard : WalkOptions Float :=
  { alpha := 0.1, epsilon := 1e-4, maxDepth := 20, stay := 0, maxTreeDepth := none }

instance : Inhabited (WalkOptions Float) := ⟨.standard⟩

/-- The options of the learner: the strength of regularization, the learning rate before it decays,
the margin of the loss, the strength of smoothing with its affinity file, the components by name,
and the seed of the first weights. -/
structure LearningOptions where
  mu : Float := 0.001
  eta : Float := 1
  delta : Float := 0.5
  zeta : Float := 0
  affinityFile : Option String := none
  squash : String := "relu"
  regularizer : String := "l2"
  schedule : String := "sync"
  loss : String := "posneg"
  learner : String := "srw"
  seed : Option Nat := none

/-- The configuration of a run. Training stops early after `stoppingEpochs` epochs in a row that
improve by less than `stoppingPercent`. -/
structure Config where
  walk : WalkOptions Float := .standard
  learning : LearningOptions := {}
  programs : List String := []
  prover : String := "dpr"
  threads : Nat := 1
  throttle : Option Nat := none
  keepOrder : Bool := true
  epochs : Nat := 5
  stoppingPercent : Float := 1
  stoppingEpochs : Nat := 3
  includeUnlabelled : Bool := false
  fixedWeights : Option String := none
  graphKey : Option String := none
  normalize : Bool := true
  topK : Option Nat := none

/-- The options of a walk are within bounds. -/
def WalkOptions.check {K : Type} [Scalar K] (o : WalkOptions K) : Except Error Unit :=
  if !(0 ≤ o.alpha && o.alpha ≤ 1) then .error (.invalidOption "alpha" .outsideUnit)
  else if !(0 ≤ o.stay && o.stay < 1) then .error (.invalidOption "stay" .outsideHalfOpenUnit)
  else if o.epsilon ≤ 0 then .error (.invalidOption "eps" .notPositive)
  else .ok ()

/-- A component may be chosen by a name. -/
def Component.check (kind : Component) (name : String) : Except Error Unit :=
  if kind.names.contains name then .ok () else .error (.unknownComponent kind name)

namespace Config

/-- The names of all components are known and the options of the walks are within bounds. -/
def validate (c : Config) : Except Error Unit := do
  Component.prover.check c.prover
  Component.squash.check c.learning.squash
  Component.regularizer.check c.learning.regularizer
  Component.schedule.check c.learning.schedule
  Component.loss.check c.learning.loss
  Component.learner.check c.learning.learner
  c.walk.check

/-- The number of workers, at least one. -/
def workers (c : Config) : Nat := max c.threads 1

/-- The greatest number of tasks submitted and not finished: one and a half for each worker if
nothing else is said, and at least one. Three times the workers are counted in one word. -/
def inFlight (c : Config) : Nat :=
  max (c.throttle.getD ((c.workers * 3 % Text.wordLimit + 1) / 2)) 1

end Config

/-! ### Overrides -/

namespace Overrides

/-- The name and the value of an item; the first equals sign separates them. -/
def item? (item : List Char) : Except Error (String × String) :=
  match item.dropWhile (· != '=') with
  | [] => .error (.invalidOption (String.ofList item) .shape)
  | _ :: value =>
    .ok (String.ofList (Text.trim (item.takeWhile (· != '='))), String.ofList (Text.trim value))

/-- The names and values of a text; blank items are skipped. -/
def items? (spec : String) : Except Error (List (String × String)) :=
  ((Text.splitAt ':' spec.toList).filter fun s => !Text.isAllBlank s).mapM item?

/-- The number that a value stands for. -/
def number? {α : Type} (read : List Char → Option α) (name value : String) : Except Error α :=
  match read value.toList with
  | some x => .ok x
  | none => .error (.invalidOption name (.notNumber value))

/-- Assigns items from left to right. -/
def assign {σ : Type} (set : σ → String → String → Except Error σ) (s : σ) :
    List (String × String) → Except Error Unit × σ
  | [] => (.ok (), s)
  | (name, value) :: rest =>
    match set s name value with
    | .ok s => assign set s rest
    | .error e => (.error e, s)

end Overrides

namespace WalkOptions

open Overrides

/-- The options with one assigned. -/
def set (o : WalkOptions Float) (name value : String) : Except Error (WalkOptions Float) :=
  match name with
  | "alpha" => do return { o with alpha := ← number? Decimal.readChars? name value }
  | "eps" | "epsilon" => do return { o with epsilon := ← number? Decimal.readChars? name value }
  | "depth" | "maxDepth" | "max_depth" => do
    return { o with maxDepth := ← number? Text.readCount? name value }
  | "stay" | "stayProbability" | "stay_probability" => do
    return { o with stay := ← number? Decimal.readChars? name value }
  | "maxTreeDepth" | "max_tree_depth" => do
    return { o with maxTreeDepth := some (← number? Text.readCount? name value) }
  | _ => .error (.invalidOption name .unknownWalkOption)

/-- Assigns options, then checks their bounds. -/
def override (o : WalkOptions Float) (spec : String) : Except Error Unit × WalkOptions Float :=
  match items? spec with
  | .error e => (.error e, o)
  | .ok items =>
    match assign set o items with
    | (.ok (), o) => (o.check, o)
    | (.error e, o) => (.error e, o)

end WalkOptions

namespace LearningOptions

open Overrides

/-- The options with one assigned. -/
def set (o : LearningOptions) (name value : String) : Except Error LearningOptions :=
  match name with
  | "mu" => do return { o with mu := ← number? Decimal.readChars? name value }
  | "eta" => do return { o with eta := ← number? Decimal.readChars? name value }
  | "delta" => do return { o with delta := ← number? Decimal.readChars? name value }
  | "zeta" => do return { o with zeta := ← number? Decimal.readChars? name value }
  | "affinity" | "affinityFile" | "affinity_file" => .ok { o with affinityFile := some value }
  | "squash" | "squashingFunction" | "squashing_function" => .ok { o with squash := value }
  | "reg" | "regularizer" => .ok { o with regularizer := value }
  | "schedule" => .ok { o with schedule := value }
  | "loss" => .ok { o with loss := value }
  | "learner" => .ok { o with learner := value }
  | "seed" => do return { o with seed := some (← number? Text.readCount? name value) }
  | _ => .error (.invalidOption name .unknownLearningOption)

/-- Assigns options. -/
def override (o : LearningOptions) (spec : String) : Except Error Unit × LearningOptions :=
  match items? spec with
  | .error e => (.error e, o)
  | .ok items => assign set o items

end LearningOptions

end ProofWalk
