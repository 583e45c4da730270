import ProofWalk.FeatureMap
import ProofWalk.Parameters.Basic
import ProofWalk.Squash

/-!
# Edge weights

The weight of an edge is the squashed sum of its features, each times its learned weight. A
weighting also tells how many features had a learned weight, so that a run can report how much of
the program was trained.

## Main definitions

* `Weighting` — the weight of every feature map
* `Weighter` — parameters with a squashing function
* `Tally` — how many features had a learned weight
-/

namespace ProofWalk

/-- The weight of every feature map, and how many of its features have a learned weight. -/
structure Weighting (K : Type) where
  weight : FeatureMap → K
  known : FeatureMap → Nat

/-- Parameters with the function that turns scores into weights. -/
structure Weighter (K : Type) where
  parameters : Parameters K
  squash : Squash

/-- How many features had a learned weight and how many had none. -/
structure Tally where
  known : Nat
  unknown : Nat
deriving Repr, DecidableEq

namespace Tally

/-- Nothing counted. -/
def zero : Tally := { known := 0, unknown := 0 }

/-- The counts with those of a feature map added, of which `known` have a learned weight. -/
def count (t : Tally) (known total : Nat) : Tally :=
  { known := t.known + known, unknown := t.unknown + (total - known) }

/-- The share of features with a learned weight, if any were counted. -/
def coverage (t : Tally) : Option Float :=
  if 0 < t.known + t.unknown then some (Float.ofNat t.known / Float.ofNat (t.known + t.unknown))
  else none

end Tally

namespace Weighter

variable {K : Type} [Scalar K]

/-- The weight of a feature: the learned one, or the default. -/
def featureWeight (w : Weighter K) (name : String) : K :=
  w.parameters.getD name w.squash.default

/-- The score of a feature map. -/
def score (w : Weighter K) (m : FeatureMap) : K :=
  m.foldl (fun total (name, value) => total + w.featureWeight name * Scalar.ofFloat value) 0

/-- The number of features that have a learned weight. -/
def known (w : Weighter K) (m : FeatureMap) : Nat :=
  m.countP fun (name, _) => w.parameters.contains name

/-- The weighting of squashed scores. -/
def weighting (w : Weighter K) : Weighting K :=
  { weight := fun m => w.squash.apply (w.score m), known := w.known }

end Weighter

end ProofWalk
