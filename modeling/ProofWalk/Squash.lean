import ProofWalk.Error
import ProofWalk.Scalar

/-!
# Squashing functions

A squashing function turns the score of an edge, the sum of its weighted features, into the edge's
weight. A feature without a learned weight counts with the function's default.

## Main definitions

* `Squash` — the functions
* `Squash.apply`, `Squash.derivative`, `Squash.default`
* `Squash.ofName?` — choosing one by name
-/

namespace ProofWalk

/-- The squashing functions. -/
inductive Squash where
  | clippedExp
  | exp
  | linear
  | relu
  | sigmoid
  | tanh
deriving Repr, DecidableEq

namespace Squash

/-- The name that a function is chosen by. -/
def name : Squash → String
  | clippedExp => "clipExp"
  | exp => "exp"
  | linear => "linear"
  | relu => "relu"
  | sigmoid => "sigmoid"
  | tanh => "tanh"

/-- The function of a name; two of them have a second name. -/
def ofName? (name : String) : Except Error Squash :=
  match name with
  | "clipExp" | "clippedExp" => .ok clippedExp
  | "exp" => .ok exp
  | "linear" => .ok linear
  | "relu" | "ReLU" => .ok relu
  | "sigmoid" => .ok sigmoid
  | "tanh" => .ok tanh
  | other => .error (.unknownComponent .squash other)

section
variable {K : Type} [Scalar K]

/-- The weight of a score. The clipped exponential goes on as a straight line from one on. -/
def apply (f : Squash) (x : K) : K :=
  match f with
  | clippedExp => if x < 1 then Scalar.exp x else Scalar.exp 1 * x
  | exp => Scalar.exp x
  | linear => x
  | relu => Scalar.max x 0
  | sigmoid => 1 / (1 + Scalar.exp (-x))
  | tanh => Scalar.tanh x

/-- How fast the weight grows with the score. -/
def derivative (f : Squash) (x : K) : K :=
  match f with
  | clippedExp => if x < 1 then Scalar.exp x else Scalar.exp 1
  | exp => Scalar.exp x
  | linear => 1
  | relu => if 0 < x then 1 else 0
  | sigmoid => sigmoid.apply x * (1 - sigmoid.apply x)
  | tanh => 1 - Scalar.tanh x * Scalar.tanh x

/-- The weight of a feature that has none of its own. -/
def default (f : Squash) : K :=
  match f with
  | relu | linear => 1
  | clippedExp | exp | sigmoid | tanh => 0

end

end Squash

end ProofWalk
