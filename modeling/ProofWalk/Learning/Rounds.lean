import ProofWalk.Learning.DualScores
import ProofWalk.Learning.GroundedLine
import ProofWalk.Learning.Transitions

/-!
# Rounds with slopes

Power iteration on a learning graph. A round puts `alpha` at the start and moves the rest of every
score along the edges of its node; slopes move along by the product rule. A node that keeps what
reaches it keeps the rest of its score.

## Main definitions

* `Rounds.round` — one round
* `Rounds.walk` — the given number of rounds
-/

namespace ProofWalk.Rounds

variable {K : Type} [Scalar K]

/-- Moves the score of a node along an edge. -/
def along (g : LearningGraph) (t : Transitions K) (alpha score : K) (slopes : Array K)
    (next : DualScores K) (e : Nat) : DualScores K :=
  let v := g.target e
  let next := next.add v ((1 - alpha) * t.at_ e) score slopes
  (t.slopeAt e).foldl (fun next (k, d) => next.addSlope v k ((1 - alpha) * score * d)) next

/-- Moves the score of a node. -/
def spread (g : LearningGraph) (t : Transitions K) (alpha : K) (s next : DualScores K) (u : Nat) :
    DualScores K :=
  if t.isAbsorbing u then next.add u (1 - alpha) (s.at_ u) (s.slopesAt u)
  else (g.edgesOf u).foldl (along g t alpha (s.at_ u) (s.slopesAt u)) next

/-- One round. -/
def round (e : TrainingExample) (t : Transitions K) (alpha : K) (s : DualScores K) : DualScores K :=
  let g := e.graph
  g.nodes.foldl (spread g t alpha s) (.seeded g.nodeCount g.featureCount alpha e.seed)

/-- A number of rounds. -/
def rounds (e : TrainingExample) (t : Transitions K) (alpha : K) : Nat → DualScores K → DualScores K
  | 0, s => s
  | n + 1, s => rounds e t alpha n (round e t alpha s)

/-- The scores of the nodes after a number of rounds. -/
def walk (e : TrainingExample) (t : Transitions K) (alpha : K) (count : Nat) : DualScores K :=
  rounds e t alpha count (.seeded e.graph.nodeCount e.graph.featureCount 1 e.seed)

end ProofWalk.Rounds
