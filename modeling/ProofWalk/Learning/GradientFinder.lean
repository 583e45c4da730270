import ProofWalk.Learning.Trainer

/-!
# Gradients of whole files

The slope of the loss of a grounded file at fixed parameters: the mean over its examples of the
slopes for each label. Lines that cannot be read or walked do not count.

## Main definitions

* `GradientFinder.find`, `GradientFinder.write`
-/

namespace ProofWalk

/-- What finds gradients: a learner and a pipeline. -/
structure GradientFinder (K : Type) where
  learner : Learner K
  pipeline : Pipeline

namespace GradientFinder

variable {K : Type} [Scalar K]

/-- The finder that a configuration describes. -/
def ofConfig {m : Type → Type} [Monad m] [Files m] (c : Config) :
    ExceptT Error m (GradientFinder K) :=
  return { learner := ← Learner.ofConfig c, pipeline := .ofConfig c }

/-- The work on a line: adds its slopes. -/
def work {m : Type → Type} [Monad m] (l : Learner K) (index : Option FeatureTable)
    (p : Parameters K) : Pipeline.Work m String K (Parameters K) := fun _ line sum =>
  match TrainingExample.parse? line index with
  | .error e => pure (.error e, sum)
  | .ok e =>
    match l.addGradient p e sum with
    | .error err => pure (.error err, sum)
    | .ok (x, sum) => pure (.ok (some x.logLoss), sum)

/-- The mean over the lines of a file, from the number of those that counted. -/
def mean (sum : Parameters K) (count : Nat) : Parameters K :=
  sum.names.foldl (fun sum name => sum.update name 0 (· / Scalar.ofNat (max count 1))) sum

/-- The gradient of a grounded file. -/
def find {m : Type → Type} [Monad m] [Files m] (f : GradientFinder K) (grounded : String)
    (p : Parameters K) : ExceptT Error m (Parameters K × TaskCounts) := do
  let index ← featureIndex (m := m) grounded
  let lines ← groundedLines (m := m) grounded
  let (r, sum, _) ← (f.pipeline.run (work f.learner.copy.1 index p)
    (fun _ loss (total : K) => (.ok (), total + loss)) Parameters.empty 0 lines : m _)
  match r with
  | .error e => throw e
  | .ok counts => return (mean sum counts.emitted, counts)

/-- Writes the gradient of a grounded file as parameters are written. -/
def write {m : Type → Type} [Monad m] [Files m] (f : GradientFinder Float) (grounded : String)
    (p : Parameters Float) (path : String) : ExceptT Error m TaskCounts := do
  let (gradient, counts) ← f.find grounded p
  gradient.save path
  return counts

end GradientFinder

end ProofWalk
