/-!
# Scalars

Walks, gradients and regularizers compute with weights. They are stated over any type that offers
the operations below, so that one definition runs on doubles and can be reasoned about over exact
numbers. Every definition keeps one order of operations, which on doubles decides the last digits.

## Main definitions

* `Scalar` — the operations that the numeric parts of the program use
* the instance on doubles
-/

namespace ProofWalk

-- powers of numbers are those of the core library
attribute [local instance (2000)] instPowNat

/-- The operations that the numeric parts of the program use. -/
class Scalar (K : Type) extends
    Add K, Sub K, Mul K, Div K, Neg K, Zero K, One K, LT K, LE K, BEq K where
  ltDecidable : DecidableLT K
  leDecidable : DecidableLE K
  /-- A whole number. -/
  ofNat : Nat → K
  /-- The number that a double stands for. -/
  ofFloat : Float → K
  exp : K → K
  tanh : K → K
  /-- The natural logarithm. -/
  log : K → K
  sqrt : K → K
  abs : K → K
  /-- One with the sign of a number. -/
  signum : K → K
  /-- A power with a whole exponent. -/
  power : K → Nat → K
  /-- The larger of two numbers. -/
  max : K → K → K
  isFinite : K → Bool
  /-- The order in which scores are ranked. -/
  order : K → K → Ordering
  /-- The least whole number that is not below a number. -/
  ceil : K → Nat

attribute [reducible, instance] Scalar.ltDecidable Scalar.leDecidable

namespace Scalar

/-- The sum of a list, from the left. -/
def sum {K : Type} [Scalar K] (xs : List K) : K := xs.foldl (· + ·) 0

/-- A number forced into an interval. -/
def clamp {K : Type} [Scalar K] (low high x : K) : K :=
  let x := if x < low then low else x
  if high < x then high else x

end Scalar

/-- The place of a double in the order that sorts all of them: the bits of a negative one count
downwards, and one that is no number stands below all numbers. -/
def floatRank (x : Float) : Int :=
  let bits := x.toBits.toNat
  if x.isNaN then -(2 ^ (64 : Nat) : Int)
  else if bits < 2 ^ (63 : Nat) then (bits : Int)
  else (2 ^ (63 : Nat) : Int) - 1 - (bits : Int)

instance : Scalar Float where
  zero := 0
  one := 1
  ltDecidable := inferInstance
  leDecidable := inferInstance
  ofNat n := Float.ofNat n
  ofFloat x := x
  exp := Float.exp
  tanh := Float.tanh
  log := Float.log
  sqrt := Float.sqrt
  abs := Float.abs
  signum x := if x.isNaN then x else if x.toBits.toNat < 2 ^ (63 : Nat) then 1 else -1
  power x n := Float.pow x (Float.ofNat n)
  max x y := if x.isNaN then y else if y.isNaN then x else if x < y then y else x
  isFinite := Float.isFinite
  order x y := compare (floatRank x) (floatRank y)
  ceil x := if 0 < x then x.ceil.toUInt64.toNat else 0

end ProofWalk
