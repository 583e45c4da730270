import Mathlib
import ProofWalk.Proofs.Exact
import ProofWalk.Squash

/-!
# How fast edge weights grow

Over the reals the derivative that a squashing function comes with is its derivative, everywhere but
at the corner of the rectified line. The clipped exponential meets its straight line with the same
slope.

## Main definitions

* `Squash.Smooth` — the scores at which a function has no corner

## Main results

* `Squash.hasDerivAt_apply`
-/

namespace ProofWalk.Squash

open Filter Topology

/-- All but the line and the hyperbolic tangent give weights that are not negative. -/
theorem apply_nonneg {f : Squash} (curved : f ≠ linear) (oneSided : f ≠ tanh) (x : ℝ) : 0 ≤ f.apply x := by
  cases f with
  | clippedExp =>
    change 0 ≤ if x < 1 then Real.exp x else Real.exp 1 * x
    split
    · positivity
    · have positive : 0 < x := lt_of_lt_of_le one_pos (not_lt.1 ‹_›)
      positivity
  | exp => exact (Real.exp_pos x).le
  | linear => exact absurd rfl curved
  | relu => exact le_max_right x 0
  | sigmoid =>
    change 0 ≤ 1 / (1 + Real.exp (-x))
    positivity
  | tanh => exact absurd rfl oneSided

/-- A score at which a function has no corner; only the rectified line has one. -/
def Smooth (f : Squash) (x : ℝ) : Prop := f = relu → x ≠ 0

theorem hasDerivAt_clippedExp (x : ℝ) :
    HasDerivAt (clippedExp.apply : ℝ → ℝ) (clippedExp.derivative x) x := by
  have line : HasDerivAt (fun y => Real.exp 1 * y) (Real.exp 1) x := by
    simpa using (hasDerivAt_id x).const_mul (Real.exp 1)
  rcases lt_trichotomy x 1 with below | rfl | above
  · have slope : (clippedExp.derivative x : ℝ) = Real.exp x := if_pos below
    rw [slope]
    exact (Real.hasDerivAt_exp x).congr_of_eventuallyEq
      ((eventually_lt_nhds below).mono fun y less => if_pos less)
  · -- both sides have the slope of the exponential at one
    have slope : (clippedExp.derivative (1 : ℝ) : ℝ) = Real.exp 1 := if_neg (lt_irrefl _)
    have meets : clippedExp.apply (1 : ℝ) = Real.exp 1 := (if_neg (lt_irrefl _)).trans (mul_one _)
    have left : HasDerivWithinAt (clippedExp.apply : ℝ → ℝ) (Real.exp 1) (Set.Iic 1) 1 := by
      refine (Real.hasDerivAt_exp 1).hasDerivWithinAt.congr (fun y least => ?_) meets
      rcases lt_or_eq_of_le (Set.mem_Iic.1 least) with less | rfl
      · exact if_pos less
      · exact meets
    have right : HasDerivWithinAt (clippedExp.apply : ℝ → ℝ) (Real.exp 1) (Set.Ici 1) 1 :=
      line.hasDerivWithinAt.congr (fun y most => if_neg (not_lt.2 (Set.mem_Ici.1 most)))
        (if_neg (lt_irrefl _))
    rw [slope, ← hasDerivWithinAt_univ, ← Set.Iic_union_Ici]
    exact left.union right
  · have slope : (clippedExp.derivative x : ℝ) = Real.exp 1 := if_neg (not_lt.2 above.le)
    rw [slope]
    exact line.congr_of_eventuallyEq
      ((eventually_gt_nhds above).mono fun y more => if_neg (not_lt.2 (le_of_lt more)))

theorem hasDerivAt_relu {x : ℝ} (smooth : x ≠ 0) :
    HasDerivAt (relu.apply : ℝ → ℝ) (relu.derivative x) x := by
  rcases lt_or_gt_of_ne smooth with negative | positive
  · have slope : (relu.derivative x : ℝ) = 0 := if_neg (not_lt.2 negative.le)
    rw [slope]
    exact (hasDerivAt_const x 0).congr_of_eventuallyEq
      ((eventually_lt_nhds negative).mono fun y less => max_eq_right (le_of_lt less))
  · have slope : (relu.derivative x : ℝ) = 1 := if_pos positive
    rw [slope]
    exact (hasDerivAt_id x).congr_of_eventuallyEq
      ((eventually_gt_nhds positive).mono fun y more => max_eq_left (le_of_lt more))

theorem hasDerivAt_sigmoid (x : ℝ) :
    HasDerivAt (sigmoid.apply : ℝ → ℝ) (sigmoid.derivative x) x := by
  have positive : 1 + Real.exp (-x) ≠ 0 := by positivity
  have inverse := (((hasDerivAt_neg x).exp).const_add 1).fun_inv positive
  have same : (sigmoid.apply : ℝ → ℝ) = fun y => (1 + Real.exp (-y))⁻¹ := by
    funext y
    exact one_div _
  have slope : (sigmoid.derivative x : ℝ) =
      (1 + Real.exp (-x))⁻¹ * (1 - (1 + Real.exp (-x))⁻¹) := by
    change sigmoid.apply x * (1 - sigmoid.apply x) = _
    rw [same]
  rw [same, slope]
  refine inverse.congr_deriv ?_
  field_simp
  ring

theorem hasDerivAt_tanh (x : ℝ) : HasDerivAt (tanh.apply : ℝ → ℝ) (tanh.derivative x) x := by
  have positive := (Real.cosh_pos x).ne'
  have quotient := (Real.hasDerivAt_sinh x).fun_div (Real.hasDerivAt_cosh x) positive
  have same : (tanh.apply : ℝ → ℝ) = fun y => Real.sinh y / Real.cosh y := by
    funext y
    exact Real.tanh_eq_sinh_div_cosh y
  have slope : (tanh.derivative x : ℝ) =
      1 - Real.sinh x / Real.cosh x * (Real.sinh x / Real.cosh x) := by
    change 1 - Real.tanh x * Real.tanh x = _
    rw [Real.tanh_eq_sinh_div_cosh]
  rw [same, slope]
  refine quotient.congr_deriv ?_
  field_simp

/-- The derivative of a squashing function is its derivative. -/
theorem hasDerivAt_apply {f : Squash} {x : ℝ} (smooth : f.Smooth x) :
    HasDerivAt (f.apply : ℝ → ℝ) (f.derivative x) x := by
  cases f with
  | clippedExp => exact hasDerivAt_clippedExp x
  | exp => exact Real.hasDerivAt_exp x
  | linear => exact hasDerivAt_id x
  | relu => exact hasDerivAt_relu (smooth rfl)
  | sigmoid => exact hasDerivAt_sigmoid x
  | tanh => exact hasDerivAt_tanh x

end ProofWalk.Squash
