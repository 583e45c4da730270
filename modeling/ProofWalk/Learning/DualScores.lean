import ProofWalk.Scalar

/-!
# Scores with slopes

The score of every node of a graph together with its slope by each feature: how the score changes
with the weight of the feature. Index zero belongs to no node.

## Main definitions

* `DualScores`
* `DualScores.add` — adds to the score and the slopes of a node
-/

namespace ProofWalk

/-- Scores by node, and slopes by node and feature. -/
structure DualScores (K : Type) where
  score : Array K
  slope : Array (Array K)

namespace DualScores

variable {K : Type} [Scalar K]

/-- All scores and slopes are zero. -/
def zeros (nodes features : Nat) : DualScores K :=
  { score := Array.replicate (nodes + 1) 0
    slope := Array.replicate (nodes + 1) (Array.replicate features 0) }

/-- The score of a node. -/
def at_ (s : DualScores K) (u : Nat) : K := (s.score[u]?).getD 0

/-- The slopes of a node. -/
def slopesAt (s : DualScores K) (u : Nat) : Array K := (s.slope[u]?).getD #[]

/-- Adds to the score of a node. -/
def addScore (s : DualScores K) (u : Nat) (x : K) : DualScores K :=
  { s with score := s.score.modify u (· + x) }

/-- Adds to the slope of a node by one feature. -/
def addSlope (s : DualScores K) (u k : Nat) (x : K) : DualScores K :=
  { s with slope := s.slope.modify u fun row => row.modify k (· + x) }

/-- Adds a multiple of slopes to those of a node. -/
def addSlopes (s : DualScores K) (u : Nat) (scale : K) (slopes : Array K) : DualScores K :=
  { s with slope := s.slope.modify u fun row =>
      row.mapIdx fun k d => d + scale * (slopes[k]?).getD 0 }

/-- Adds a multiple of a score and of its slopes to a node. -/
def add (s : DualScores K) (u : Nat) (scale score : K) (slopes : Array K) : DualScores K :=
  (s.addScore u (scale * score)).addSlopes u scale slopes

/-- Sets the score of a node, and changes its slopes. -/
def put (s : DualScores K) (u : Nat) (score : K) (f : K → K) : DualScores K :=
  { score := s.score.setIfInBounds u score
    slope := s.slope.modify u fun row => row.map f }

/-- Scores that start a walk; their slopes are zero. -/
def seeded (nodes features : Nat) (scale : K) (seed : List (Nat × Float)) : DualScores K :=
  seed.foldl (fun s (u, w) => s.addScore u (scale * Scalar.ofFloat w)) (zeros nodes features)

/-- The sum of all scores. -/
def mass (s : DualScores K) : K := Scalar.sum s.score.toList

end DualScores

end ProofWalk
