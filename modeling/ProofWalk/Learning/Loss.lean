import ProofWalk.Learning.DualScores
import ProofWalk.Learning.GroundedLine

/-!
# Losses

A loss measures how far the scores of the labelled nodes of an example are from what its labels say,
and gives its slope by each feature. Scores are kept away from zero and one by a bound before
logarithms are taken.

* `posNeg`: minus the logarithm of the score of every right node, and minus that of one less the
  score of every wrong node. With a margin below one half the wrong nodes count `boost` times.
* `normalized`: minus the logarithm of the share of the right nodes in the scores of all labelled
  nodes.

## Main definitions

* `Loss`, `Loss.ofName?`
* `Loss.evaluate` — the loss and its slopes
-/

namespace ProofWalk

/-- The losses. -/
inductive Loss (K : Type) where
  | posNeg (margin : K)
  | normalized

/-- A loss with its slope by each feature. -/
structure LossValue (K : Type) where
  loss : K
  gradient : Array K

namespace Loss

variable {K : Type} [Scalar K]

/-- The name that a loss is chosen by. -/
def name : Loss K → String
  | posNeg _ => "posneg"
  | normalized => "normalized"

/-- The loss of a name. -/
def ofName? (name : String) (margin : K) : Except Error (Loss K) :=
  match name with
  | "posneg" => .ok (posNeg margin)
  | "normalized" => .ok normalized
  | other => .error (.unknownComponent .loss other)

/-- How close to zero and to one a score may come. -/
def bound : K := Scalar.ofFloat 1e-15

/-- One half. -/
def half : K := 1 / Scalar.ofNat 2

/-- Adds a multiple of the slopes of a node. -/
def addScaled (s : DualScores K) (u : Nat) (scale : K) (gradient : Array K) : Array K :=
  match s.slope[u]? with
  | none => gradient
  | some row =>
    (List.range (min gradient.size row.size)).foldl (fun gradient k =>
      gradient.modify k (· + scale * (row[k]?).getD 0)) gradient

/-- How often a wrong node counts: `ln (1 / h) / ln (1 / (1 - h))`, where `h` is the greatest score
of a wrong node and the margin, if the margin is below one half and that is a positive number. -/
def boost (margin : K) (e : TrainingExample) (s : DualScores K) : K :=
  if half ≤ margin then 1
  else
    let greatest := e.neg.foldl (fun x u => Scalar.max x (s.at_ u)) 0
    let h := greatest + margin
    if h ≤ 0 ∨ 1 ≤ h then 1
    else
      let b := Scalar.log (1 / h) / Scalar.log (1 / (1 - h))
      if Scalar.isFinite b ∧ 0 < b then b else 1

/-- The loss of an example and its slopes. -/
def evaluate (l : Loss K) (e : TrainingExample) (s : DualScores K) : LossValue K :=
  let zero : LossValue K := { loss := 0, gradient := Array.replicate e.graph.featureCount 0 }
  match l with
  | posNeg margin =>
    let v := e.pos.foldl (fun (v : LossValue K) u =>
      let x := Scalar.clamp bound 1 (s.at_ u)
      { loss := v.loss - Scalar.log x, gradient := addScaled s u (-1 / x) v.gradient }) zero
    let b := boost margin e s
    e.neg.foldl (fun (v : LossValue K) u =>
      let x := Scalar.clamp 0 (1 - bound) (s.at_ u)
      { loss := v.loss - b * Scalar.log (1 - x)
        gradient := addScaled s u (b / (1 - x)) v.gradient }) v
  | normalized =>
    let right := Scalar.max (Scalar.sum (e.pos.map s.at_)) bound
    let wrong := Scalar.sum (e.neg.map s.at_)
    let all := right + wrong
    let gradient := e.pos.foldl (fun gradient u =>
      addScaled s u (-1 / right + 1 / all) gradient) zero.gradient
    let gradient := e.neg.foldl (fun gradient u => addScaled s u (1 / all) gradient) gradient
    { loss := -Scalar.log (right / all), gradient }

end Loss

end ProofWalk
