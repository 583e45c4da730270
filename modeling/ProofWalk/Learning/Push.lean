import ProofWalk.Learning.DualScores
import ProofWalk.Learning.GroundedLine
import ProofWalk.Learning.Transitions
import ProofWalk.Prover.Push

/-!
# Local push with slopes

The local push on a learning graph. It takes the steps of the prover's push; what is settled and
what is residual carry slopes, which move along by the product rule. It does not go on through edges
that lead back to their node.

## Main definitions

* `DualMass` — settled and residual scores
* `DualMass.push` — one push
* `GradedPush.walk` — the walk
-/

namespace ProofWalk

/-- Settled and residual scores with their slopes. -/
structure DualMass (K : Type) where
  settled : DualScores K
  residual : DualScores K

namespace DualMass

variable {K : Type} [Scalar K]

/-- Gives the target of an edge its part of a push. -/
def along (g : LearningGraph) (t : Transitions K) (scale score : K) (slopes : Array K)
    (residual : DualScores K) (e : Nat) : DualScores K :=
  let v := g.target e
  let m := t.at_ e
  let residual := (residual.addScore v (scale * m * score)).addSlopes v (scale * m) slopes
  (t.slopeAt e).foldl (fun residual (k, d) => residual.addSlope v k (scale * score * d)) residual

/-- One push of a node. -/
def push (o : WalkOptions K) (g : LearningGraph) (t : Transitions K) (u : Nat) (m : DualMass K) :
    DualMass K :=
  let score := m.residual.at_ u
  let slopes := m.residual.slopesAt u
  let settled := m.settled.add u o.alpha score slopes
  let kept := (1 - o.alpha) * o.stay
  let residual := m.residual.put u (kept * score) (· * kept)
  { settled
    residual := (g.edgesOf u).foldl
      (along g t ((1 - o.alpha) * (1 - o.stay)) score slopes) residual }

/-- Pushes a node while its residual per edge exceeds the threshold, at most `limit` times. -/
def drain (o : WalkOptions K) (g : LearningGraph) (t : Transitions K) (threshold degree : K)
    (u : Nat) : Nat → DualMass K → Option (DualMass K)
  | 0, _ => none
  | limit + 1, m =>
    if threshold < m.residual.at_ u / degree then
      drain o g t threshold degree u limit (m.push o g t u)
    else some m

/-- Settles all the residual of a node. -/
def absorb (u : Nat) (m : DualMass K) : DualMass K :=
  { settled := m.settled.add u 1 (m.residual.at_ u) (m.residual.slopesAt u)
    residual := m.residual.put u 0 fun _ => 0 }

end DualMass

namespace GradedPush

variable {K : Type} [Scalar K]

/-- The node at which a walk starts. -/
def startOf (e : TrainingExample) : Nat := ((e.seed.head?).map (·.1)).getD 1

/-- A pass from a node at a depth: pushes it, then goes on through the targets of its edges. Gives
the number of nodes pushed. Goes at most `limit` deep, and pushes a node at most `bound` times in a
row. -/
def pass (o : WalkOptions K) (e : TrainingExample) (t : Transitions K) (bound : Nat) (threshold : K) :
    Nat → Nat → Nat → DualMass K → Except Error (Nat × DualMass K)
  | 0, _, _, _ => .error .walkUnfinished
  | limit + 1, depth, u, m =>
    let g := e.graph
    let degree : K := Scalar.ofNat (max (g.degree u) 1)
    if o.isTooDeep depth then .ok (0, m)
    else if g.nodeCount < u then .error .indexOutOfBounds
    else if m.residual.at_ u / degree ≤ threshold then .ok (0, m)
    else if t.isAbsorbing u then .ok (1, m.absorb u)
    else
      match m.drain o g t threshold degree u bound with
      | none => .error .walkUnfinished
      | some m =>
        (g.edgesOf u).foldlM (fun (pushes, m) edge =>
          let v := g.target edge
          if v = startOf e ∨ v = u ∨ t.at_ edge == 0 then .ok (pushes, m)
          else do
            let (more, m) ← pass o e t bound threshold limit (depth + 1) v m
            return (pushes + more, m)) (1, m)

/-- A pass from every node of the seed. -/
def passAll (o : WalkOptions K) (e : TrainingExample) (t : Transitions K) (bound : Nat) (threshold : K)
    (m : DualMass K) : Except Error (Nat × DualMass K) :=
  e.seed.foldlM (fun (pushes, m) (u, _) => do
    let (more, m) ← pass o e t bound threshold bound 1 u m
    return (pushes + more, m)) (0, m)

/-- Passes with ever lower thresholds until one at `epsilon` pushes nothing. -/
def tighten (o : WalkOptions K) (e : TrainingExample) (t : Transitions K) (bound : Nat) :
    Nat → K → DualMass K → Except Error (DualMass K)
  | 0, _, _ => .error .walkUnfinished
  | limit + 1, threshold, m => do
    let threshold := tightened o threshold
    let (pushes, m) ← passAll o e t bound threshold m
    if threshold == o.epsilon && pushes == 0 then return m
    tighten o e t bound limit threshold m

/-- The walk: what it settles and what stays residual. The bound is on passes, on their depth, and on
the pushes of a node in a row. -/
def walk (o : WalkOptions K) (e : TrainingExample) (t : Transitions K) (bound : Nat := walkLimit) :
    Except Error (DualMass K) :=
  let g := e.graph
  tighten o e t bound bound 1
    { settled := .zeros g.nodeCount g.featureCount
      residual := .seeded g.nodeCount g.featureCount 1 e.seed }

end GradedPush

end ProofWalk
