import ProofWalk.Error
import ProofWalk.Files
import ProofWalk.Parameters.Basic
import ProofWalk.Text.Lines
import Std.Data.HashMap

/-!
# Regularizers

A regularizer shrinks weights. It can take any number of its steps for one weight at once, and tells
what loss they are charged.

* `l2`: a step multiplies a weight by `1 - 2 mu rate`
* `l1`: a step moves a weight towards zero by `mu rate` and not past it
* `laplacian`: a step first moves a weight towards the mean of its neighbours, then as `l1`
* `groupLasso`: a step first shrinks a weight by its share of the norm of itself and its neighbours,
  then as `l1`

Which features are neighbours stands in an affinity file. A line of it is `#feature`, a tab and a neighbour;
what stands behind a further tab does not matter.

## Main definitions

* `Affinity`, `Affinity.parse`, `Affinity.load`, `Affinity.neighbours?`
* `Regularizer`
* `Regularizer.decay` — a number of steps for one weight
-/

namespace ProofWalk

/-! ### Affinity -/

/-- The neighbours listed for every key of an affinity file. -/
structure Affinity where
  byKey : Std.HashMap String (List String)

namespace Affinity

/-- No neighbours. -/
def empty : Affinity := { byKey := ∅ }

/-- The affinity with the neighbour on a line, if it holds one. -/
def addLine (a : Affinity) (line : String) : Affinity :=
  let chars := (line.toList.reverse.dropWhile (· == '\r')).reverse
  match Text.splitAt '\t' chars with
  | key :: other :: _ =>
    if key.isEmpty || other.isEmpty then a
    else
      { byKey := a.byKey.alter (String.ofList key) fun others =>
          some (others.getD [] ++ [String.ofList other]) }
  | _ => a

/-- Reads an affinity file. -/
def parse (text : String) : Affinity := (Text.linesOf text).foldl addLine empty

/-- The neighbours of a feature, if any are listed. -/
def neighbours? (a : Affinity) (feature : String) : Option (List String) := a.byKey["#" ++ feature]?

/-- The number of keys. -/
def size (a : Affinity) : Nat := a.byKey.size

/-- Reads an affinity file by its path. -/
def load {m : Type → Type} [Monad m] [Files m] (path : String) : ExceptT Error m Affinity := do
  match ← Files.read? (m := m) path with
  | none => throw (.learnFile path)
  | some text => pure (parse text)

end Affinity

/-! ### Regularizers -/

/-- The regularizers, with the strengths of shrinking and of smoothing. -/
inductive Regularizer (K : Type) where
  | none
  | l1 (mu : K)
  | l2 (mu : K)
  | laplacian (mu zeta : K) (affinity : Affinity)
  | groupLasso (mu zeta : K) (affinity : Affinity)

namespace Regularizer

variable {K : Type} [Scalar K]

/-- The name that a regularizer is chosen by. -/
def name : Regularizer K → String
  | none => "none"
  | l1 _ => "l1"
  | l2 _ => "l2"
  | laplacian .. => "l1laplacian"
  | groupLasso .. => "l1grouplasso"

/-- A weight moved towards zero by an amount and not past it. -/
def soften (amount w : K) : K := Scalar.signum w * Scalar.max (Scalar.abs w - amount) 0

/-- The steps of `l1`. -/
def shrink (mu : K) (p : Parameters K) (feature : String) (steps : Nat) (rate : K) :
    K × Parameters K :=
  match p.get? feature with
  | .none => (0, p)
  | some w =>
    let amount := Scalar.ofNat steps * rate * mu
    if steps == 0 || mu == 0 || !Scalar.isFinite amount then (0, p)
    else (Scalar.ofNat steps * mu * Scalar.abs w, p.set feature (soften amount w))

/-- The steps of `l2`. -/
def contract (mu : K) (p : Parameters K) (feature : String) (steps : Nat) (rate : K) :
    K × Parameters K :=
  match p.get? feature with
  | .none => (0, p)
  | some w =>
    if steps == 0 || mu == 0 then (0, p)
    else
      let factor := Scalar.power (1 - Scalar.ofNat 2 * mu * rate) steps
      (Scalar.ofNat steps * mu * w * w, p.set feature (w * factor))

/-- The smoothing steps of `laplacian`, with the neighbours held fixed. -/
def smooth (zeta : K) (neighbours : List String) (p : Parameters K) (feature : String)
    (steps : Nat) (rate : K) : K × Parameters K :=
  match p.get? feature with
  | .none => (0, p)
  | some w =>
    if neighbours.isEmpty || zeta == 0 then (0, p)
    else
      let degree : K := Scalar.ofNat neighbours.length
      let total := Scalar.sum (neighbours.map fun n => p.getD n 0)
      let slope := degree * w - total
      let a := Scalar.power (1 - Scalar.ofNat 2 * zeta * rate * degree) steps
      let mean := total / degree
      (Scalar.ofNat steps * zeta * slope * slope, p.set feature (mean + (w - mean) * a))

/-- The group steps of `groupLasso`. -/
def shrinkGroup (zeta : K) (neighbours : List String) (p : Parameters K) (feature : String)
    (steps : Nat) (rate : K) : K × Parameters K :=
  match p.get? feature with
  | .none => (0, p)
  | some w =>
    if zeta == 0 then (0, p)
    else
      let squares := Scalar.sum (neighbours.map fun n => p.getD n 0 * p.getD n 0)
      let norm := Scalar.sqrt (w * w + squares)
      if 0 < norm then
        let scale := Scalar.max (1 - Scalar.ofNat steps * rate * zeta / norm) 0
        (Scalar.ofNat steps * zeta * norm, p.set feature (w * scale))
      else (0, p)

/-- Takes a number of steps for the weight of a feature at a learning rate. Gives the loss that they
are charged. -/
def decay (r : Regularizer K) (p : Parameters K) (feature : String) (steps : Nat) (rate : K) :
    K × Parameters K :=
  match r with
  | .none => (0, p)
  | .l1 mu => shrink mu p feature steps rate
  | .l2 mu => contract mu p feature steps rate
  | .laplacian mu zeta affinity =>
    if steps == 0 then (0, p)
    else
      let (loss, p) := match affinity.neighbours? feature with
        | .none => (0, p)
        | some neighbours => smooth zeta neighbours p feature steps rate
      let (more, p) := shrink mu p feature steps rate
      (loss + more, p)
  | .groupLasso mu zeta affinity =>
    if steps == 0 then (0, p)
    else
      let (loss, p) := match affinity.neighbours? feature with
        | .none => (0, p)
        | some neighbours => shrinkGroup zeta neighbours p feature steps rate
      let (more, p) := shrink mu p feature steps rate
      (loss + more, p)

end Regularizer

end ProofWalk
