import ProofWalk.Error

/-!
# Walk options

The options that every walk over a proof graph shares.
-/

namespace ProofWalk

/-- The options of a walk: the probability of a restart, the residual below which nothing is
pushed, the number of rounds or the greatest depth, the probability of staying at a node, and how
deep a push may go. -/
structure WalkOptions (K : Type) where
  alpha : K
  epsilon : K
  maxDepth : Nat
  stay : K
  maxTreeDepth : Option Nat

/-- The options with other numbers. -/
def WalkOptions.map {K L : Type} (f : K → L) (o : WalkOptions K) : WalkOptions L :=
  { o with alpha := f o.alpha, epsilon := f o.epsilon, stay := f o.stay }

/-- Whether a push at a depth is past the greatest one allowed. -/
def WalkOptions.isTooDeep {K : Type} (o : WalkOptions K) (depth : Nat) : Bool :=
  o.maxTreeDepth.any (· < depth)

end ProofWalk
