import Mathlib.Analysis.SpecialFunctions.Log.Basic
import ProofWalk.Scalar

/-!
# Exact scores

Walks and weights over the real numbers. All operations are those of the reals; a double counts with
the number that it stands for.

## Main definitions

* `realOfFloat` — the number that a double stands for
* the instance on real numbers
-/

namespace ProofWalk

open Float.Model in
/-- The number that a double stands for, zero if it stands for none. -/
noncomputable def realOfFloat (x : Float) : ℝ :=
  match x.toModel.unpack with
  | .finite .negative mantissa exponent _ => -(mantissa * 2 ^ exponent)
  | .finite .positive mantissa exponent _ => mantissa * 2 ^ exponent
  | _ => 0

noncomputable instance : Scalar ℝ where
  toAdd := inferInstance
  toSub := inferInstance
  toMul := inferInstance
  toDiv := inferInstance
  toNeg := inferInstance
  toZero := inferInstance
  toOne := inferInstance
  toLT := inferInstance
  toLE := inferInstance
  toBEq := inferInstance
  ltDecidable := inferInstance
  leDecidable := inferInstance
  ofNat n := n
  ofFloat := realOfFloat
  exp := Real.exp
  tanh := Real.tanh
  log := Real.log
  sqrt := Real.sqrt
  abs x := |x|
  signum x := if x < 0 then -1 else 1
  power x n := x ^ n
  max := max
  isFinite _ := true
  order := compare
  ceil x := ⌈x⌉₊

namespace Scalar

theorem ofNat_real (n : Nat) : (Scalar.ofNat n : ℝ) = n := rfl

theorem sum_real (xs : List ℝ) : Scalar.sum xs = xs.sum := by
  rw [Scalar.sum, List.sum_eq_foldl]

open Float.Model in
/-- The double one stands for the number one. -/
theorem ofFloat_one : (Scalar.ofFloat 1 : ℝ) = 1 := by
  have unpacked : (1 : Float).toModel.unpack = .finite .positive (2 ^ 52) (-52) (by decide) := rfl
  change realOfFloat 1 = 1
  rw [realOfFloat, unpacked]
  norm_num

end Scalar

end ProofWalk
