import Mathlib.Algebra.Order.Field.Power
import Mathlib.Tactic.Linarith
import Mathlib.Tactic.NormNum.Basic
import Mathlib.Tactic.Positivity
import Mathlib.Tactic.Ring
import ProofWalk.Decimal.Double

/-!
# The nearest double

A finite double is a significand times a power of two. The numbers that round to it lie around it, half a
unit up and half a unit down, but for the least significand of a higher power, below which doubles are
closer together. The ends of this interval belong to it if the significand is even.

## Main definitions

* `Within` — a number rounds to a double

## Main results

* `roundDiv_eq` — the whole number nearest to a quotient
* `binaryExponent_spec` — the power of two below a ratio
* `nearestBits_eq` — the bits of the double to which a ratio rounds
-/

namespace ProofWalk.Decimal

/-! ### Quotients -/

/-- A quotient is rounded to the whole number that is at most a half away; where two are, it is the even
one. -/
theorem roundDiv_eq {num den n : Nat} (positive : 0 < den) (low : (n : ℚ) - 1 / 2 ≤ num / den)
    (high : (num : ℚ) / den ≤ n + 1 / 2)
    (odd : n % 2 = 1 → (n : ℚ) - 1 / 2 < num / den ∧ (num : ℚ) / den < n + 1 / 2) :
    roundDiv num den = n := by
  have pos : (0 : ℚ) < den := by exact_mod_cast positive
  have low' : 2 * (n * den) ≤ 2 * num + den := by
    rw [le_div_iff₀ pos] at low
    have : (2 * (n * den) : ℚ) ≤ 2 * num + den := by linarith
    exact_mod_cast this
  have high' : 2 * num ≤ 2 * (n * den) + den := by
    rw [div_le_iff₀ pos] at high
    have : (2 * num : ℚ) ≤ 2 * (n * den) + den := by linarith
    exact_mod_cast this
  have odd' : n % 2 = 1 → 2 * (n * den) < 2 * num + den ∧ 2 * num < 2 * (n * den) + den := by
    intro isOdd
    obtain ⟨low, high⟩ := odd isOdd
    rw [lt_div_iff₀ pos] at low
    rw [div_lt_iff₀ pos] at high
    constructor
    · have : (2 * (n * den) : ℚ) < 2 * num + den := by linarith
      exact_mod_cast this
    · have : (2 * num : ℚ) < 2 * (n * den) + den := by linarith
      exact_mod_cast this
  have split := Nat.div_add_mod num den
  have rest := Nat.mod_lt num positive
  -- the quotient without its rest is the whole number or the one before
  have near : num / den = n ∨ num / den + 1 = n := by
    have below : num / den < n + 1 := by
      rw [Nat.div_lt_iff_lt_mul positive, Nat.add_mul]
      omega
    have above : n ≤ num / den + 1 := by
      by_contra far
      have more := Nat.mul_le_mul_right den (show num / den + 2 ≤ n by omega)
      rw [Nat.add_mul, Nat.mul_comm (num / den)] at more
      omega
    omega
  unfold roundDiv
  simp only [beq_iff_eq]
  rcases near with same | before
  · rw [same] at split ⊢
    rw [Nat.mul_comm] at split
    split
    · rfl
    · split
      · omega
      · split
        · rfl
        · have := odd' (by omega)
          omega
  · rw [← before] at low' high' odd'
    rw [Nat.add_mul, Nat.mul_comm (num / den)] at low' high' odd'
    split
    · omega
    · split
      · exact before
      · split
        · have := odd' (by omega)
          omega
        · exact before

/-! ### Powers of two -/

theorem two_zpow_pos (n : Int) : (0 : ℚ) < 2 ^ n := by positivity

/-- A power of two with a whole exponent as a quotient. -/
theorem two_zpow_eq (n : Int) :
    (2 : ℚ) ^ n = if 0 ≤ n then ((2 ^ n.toNat : Nat) : ℚ) else 1 / ((2 ^ (-n).toNat : Nat) : ℚ) := by
  split
  · rename_i nonneg
    conv_lhs => rw [← Int.toNat_of_nonneg nonneg]
    rw [zpow_natCast, Nat.cast_pow, Nat.cast_ofNat]
  · rename_i negative
    have isNeg : n = -((-n).toNat : Int) := by omega
    conv_lhs => rw [isNeg]
    rw [zpow_neg, zpow_natCast, Nat.cast_pow, Nat.cast_ofNat, one_div]

/-- The ratio of a significand times a power of two. -/
theorem dyadicRatio_spec (significand : Nat) (exponent : Int) :
    0 < (dyadicRatio significand exponent).2 ∧
      ((dyadicRatio significand exponent).1 : ℚ) / (dyadicRatio significand exponent).2 =
        significand * 2 ^ exponent := by
  rw [two_zpow_eq]
  unfold dyadicRatio
  split
  · exact ⟨Nat.one_pos, by push_cast; ring⟩
  · exact ⟨by positivity, by rw [mul_one_div]⟩

/-- The power of two below a ratio. -/
theorem binaryExponent_spec {num den : Nat} (num_pos : 0 < num) (den_pos : 0 < den) :
    (2 : ℚ) ^ binaryExponent num den ≤ num / den ∧
      (num : ℚ) / den < 2 ^ (binaryExponent num den + 1) := by
  have pos : (0 : ℚ) < den := by exact_mod_cast den_pos
  have bounds (n : Nat) (positive : 0 < n) :
      (2 : ℚ) ^ (n.log2 : Int) ≤ n ∧ (n : ℚ) < 2 ^ ((n.log2 : Int) + 1) := by
    obtain ⟨low, high⟩ := (Nat.log2_eq_iff (Nat.pos_iff_ne_zero.1 positive)).1 (rfl : n.log2 = n.log2)
    constructor
    · rw [zpow_natCast]
      exact_mod_cast low
    · have cast : ((n.log2 : Int) + 1) = ((n.log2 + 1 : Nat) : Int) := by push_cast; rfl
      rw [cast, zpow_natCast]
      exact_mod_cast high
  obtain ⟨numLow, numHigh⟩ := bounds num num_pos
  obtain ⟨denLow, denHigh⟩ := bounds den den_pos
  have two : (2 : ℚ) ≠ 0 := two_ne_zero
  have upper : (num : ℚ) / den < 2 ^ ((num.log2 : Int) - den.log2 + 1) := by
    rw [div_lt_iff₀ pos]
    calc (num : ℚ) < 2 ^ ((num.log2 : Int) + 1) := numHigh
      _ = 2 ^ ((num.log2 : Int) - den.log2 + 1) * 2 ^ (den.log2 : Int) := by
        rw [← zpow_add₀ two]
        congr 1
        ring
      _ ≤ _ := mul_le_mul_of_nonneg_left denLow (two_zpow_pos _).le
  have lower : (2 : ℚ) ^ ((num.log2 : Int) - den.log2 - 1) ≤ num / den := by
    rw [le_div_iff₀ pos]
    calc (2 : ℚ) ^ ((num.log2 : Int) - den.log2 - 1) * den
        ≤ 2 ^ ((num.log2 : Int) - den.log2 - 1) * 2 ^ ((den.log2 : Int) + 1) :=
          mul_le_mul_of_nonneg_left denHigh.le (two_zpow_pos _).le
      _ = 2 ^ (num.log2 : Int) := by
        rw [← zpow_add₀ two]
        congr 1
        ring
      _ ≤ num := numLow
  -- the guess is reached when its power is not above the ratio
  have reaches : (if 0 ≤ (num.log2 : Int) - den.log2 then den * 2 ^ ((num.log2 : Int) - den.log2).toNat ≤ num
      else den ≤ num * 2 ^ (-((num.log2 : Int) - den.log2)).toNat) ↔
        (2 : ℚ) ^ ((num.log2 : Int) - den.log2) ≤ num / den := by
    rw [two_zpow_eq, le_div_iff₀ pos]
    split
    · rw [mul_comm]
      norm_cast
    · rw [one_div_mul_eq_div, div_le_iff₀ (by positivity)]
      norm_cast
  unfold binaryExponent
  simp only
  by_cases reached : (2 : ℚ) ^ ((num.log2 : Int) - den.log2) ≤ num / den
  · rw [if_pos (reaches.2 reached)]
    exact ⟨reached, upper⟩
  · rw [if_neg (fun holds => reached (reaches.1 holds))]
    refine ⟨lower, ?_⟩
    rw [sub_add_cancel]
    exact lt_of_not_ge reached

/-! ### Rounding to a double -/

/-- How far a number may be below a significand, in units of its last place, and still round to it. -/
def gapBelow (significand : Nat) (exponent : Int) : ℚ :=
  if significand = 2 ^ 52 ∧ exponent ≠ -1074 then 1 / 4 else 1 / 2

/-- A number rounds to the double of a significand and an exponent. -/
structure Within (significand : Nat) (exponent : Int) (q : ℚ) : Prop where
  low : ((significand : ℚ) - gapBelow significand exponent) * 2 ^ exponent ≤ q
  high : q ≤ ((significand : ℚ) + 1 / 2) * 2 ^ exponent
  odd : significand % 2 = 1 →
    ((significand : ℚ) - gapBelow significand exponent) * 2 ^ exponent < q ∧
      q < ((significand : ℚ) + 1 / 2) * 2 ^ exponent

/-- The significand to which `nearestBits` rounds is that of the ratio in units of the exponent. -/
private theorem roundDiv_scaled {num den n : Nat} {exponent : Int} (den_pos : 0 < den)
    (low : (n : ℚ) - 1 / 2 ≤ num / den / 2 ^ exponent) (high : (num : ℚ) / den / 2 ^ exponent ≤ n + 1 / 2)
    (odd : n % 2 = 1 → (n : ℚ) - 1 / 2 < num / den / 2 ^ exponent ∧
      (num : ℚ) / den / 2 ^ exponent < n + 1 / 2) :
    (if 0 ≤ exponent then roundDiv num (den * 2 ^ exponent.toNat)
      else roundDiv (num * 2 ^ (-exponent).toNat) den) = n := by
  have scaled := two_zpow_eq exponent
  split
  · rename_i nonneg
    rw [if_pos nonneg] at scaled
    have same : (num : ℚ) / den / 2 ^ exponent = (num : ℚ) / ((den * 2 ^ exponent.toNat : Nat) : ℚ) := by
      rw [scaled, div_div]
      push_cast
      rfl
    rw [same] at low high odd
    exact roundDiv_eq (by positivity) low high odd
  · rename_i negative
    rw [if_neg negative] at scaled
    have same : (num : ℚ) / den / 2 ^ exponent = ((num * 2 ^ (-exponent).toNat : Nat) : ℚ) / den := by
      rw [scaled, one_div, div_inv_eq_mul]
      push_cast
      ring
    rw [same] at low high odd
    exact roundDiv_eq den_pos low high odd

/-- A ratio that rounds to a double has the bits of that double. -/
theorem nearestBits_eq {num den significand : Nat} {exponent : Int} (den_pos : 0 < den)
    (positive : 0 < significand) (least : -1074 ≤ exponent) (bound : significand < 2 ^ 53)
    (small : significand < 2 ^ 52 → exponent = -1074)
    (finite : (exponent + 1074).toNat * 2 ^ 52 + significand < 2047 * 2 ^ 52)
    (within : Within significand exponent ((num : ℚ) / den)) :
    nearestBits num den = (exponent + 1074).toNat * 2 ^ 52 + significand := by
  obtain ⟨low, high, odd⟩ := within
  have unit := two_zpow_pos exponent
  have pos : (0 : ℚ) < den := by exact_mod_cast den_pos
  have one_le : (1 : ℚ) ≤ significand := by exact_mod_cast positive
  have gap : 0 < gapBelow significand exponent ∧ gapBelow significand exponent ≤ 1 / 2 := by
    unfold gapBelow
    split <;> norm_num
  have ratio_pos : (0 : ℚ) < num / den := by
    refine lt_of_lt_of_le (mul_pos ?_ unit) low
    linarith [gap.2]
  have num_pos : 0 < num := by
    rw [Nat.pos_iff_ne_zero]
    rintro rfl
    simp at ratio_pos
  obtain ⟨above, below⟩ := binaryExponent_spec num_pos den_pos
  have two : (2 : ℚ) ≠ 0 := two_ne_zero
  have one_lt : (1 : ℚ) < 2 := one_lt_two
  -- where the significand is the least of its power and the ratio is below it, the exponent is one less
  by_cases lower : significand = 2 ^ 52 ∧ exponent ≠ -1074 ∧ (num : ℚ) / den < 2 ^ 52 * 2 ^ exponent
  · obtain ⟨isPower, notLeast, less⟩ := lower
    have isGap : gapBelow significand exponent = 1 / 4 := if_pos ⟨isPower, notLeast⟩
    have half : (2 : ℚ) ^ exponent = 2 * 2 ^ (exponent - 1) := by
      rw [← zpow_one_add₀ two]
      congr 1
      ring
    have isExponent : binaryExponent num den = exponent + 51 := by
      have first : (2 : ℚ) ^ (exponent + 51) ≤ num / den := by
        refine le_trans ?_ low
        rw [isGap, isPower, zpow_add₀ two, mul_comm]
        refine mul_le_mul_of_nonneg_right ?_ unit.le
        norm_num
      have second : (num : ℚ) / den < 2 ^ (exponent + 52) := by
        refine lt_of_lt_of_eq less ?_
        rw [zpow_add₀ two, mul_comm]
        norm_num
      have h₁ := (zpow_lt_zpow_iff_right₀ one_lt).1 (lt_of_le_of_lt first below)
      have h₂ := (zpow_lt_zpow_iff_right₀ one_lt).1 (lt_of_le_of_lt above second)
      omega
    have isMax : max (binaryExponent num den - 52) (-1074) = exponent - 1 := by
      rw [isExponent]
      omega
    have scaledLow : ((2 ^ 53 : Nat) : ℚ) - 1 / 2 ≤ num / den / 2 ^ (exponent - 1) := by
      rw [le_div_iff₀ (two_zpow_pos _)]
      rw [isGap, isPower, half] at low
      push_cast at low ⊢
      linarith
    have scaledHigh : (num : ℚ) / den / 2 ^ (exponent - 1) ≤ ((2 ^ 53 : Nat) : ℚ) + 1 / 2 := by
      rw [div_le_iff₀ (two_zpow_pos _)]
      rw [half] at less
      have := two_zpow_pos (exponent - 1)
      push_cast
      linarith
    unfold nearestBits
    simp only
    rw [isMax, roundDiv_scaled den_pos scaledLow scaledHigh (fun isOdd => by norm_num at isOdd)]
    omega
  · -- else the exponent is that of the double
    have lowHalf : ((significand : ℚ) - 1 / 2) * 2 ^ exponent ≤ num / den ∧
        (significand % 2 = 1 → ((significand : ℚ) - 1 / 2) * 2 ^ exponent < num / den) := by
      have weaker : ((significand : ℚ) - 1 / 2) * 2 ^ exponent ≤
          ((significand : ℚ) - gapBelow significand exponent) * 2 ^ exponent :=
        mul_le_mul_of_nonneg_right (by linarith [gap.2]) unit.le
      exact ⟨weaker.trans low, fun isOdd => weaker.trans_lt (odd isOdd).1⟩
    have upper : binaryExponent num den ≤ exponent + 52 := by
      have less : (num : ℚ) / den < 2 ^ (exponent + 53) := by
        refine lt_of_le_of_lt high ?_
        rw [zpow_add₀ two, mul_comm]
        refine mul_lt_mul_of_pos_left ?_ unit
        have most : (significand : ℚ) ≤ 2 ^ 53 - 1 := by
          have : significand + 1 ≤ 2 ^ 53 := bound
          have cast : ((significand + 1 : Nat) : ℚ) ≤ ((2 ^ 53 : Nat) : ℚ) := by exact_mod_cast this
          push_cast at cast
          linarith
        rw [show (2 : ℚ) ^ (53 : Int) = 2 ^ 53 from zpow_natCast 2 53]
        linarith
      have := (zpow_lt_zpow_iff_right₀ one_lt).1 (lt_of_le_of_lt above less)
      omega
    have isMax : max (binaryExponent num den - 52) (-1074) = exponent := by
      by_cases isLeast : exponent = -1074
      · omega
      · -- a greater significand, or a ratio that is not below the power
        have reaches : (2 : ℚ) ^ (exponent + 52) ≤ num / den := by
          have enough : (2 : ℚ) ^ 52 * 2 ^ exponent ≤ num / den := by
            by_cases isPower : significand = 2 ^ 52
            · by_contra less
              exact lower ⟨isPower, isLeast, lt_of_not_ge less⟩
            · have more : 2 ^ 52 + 1 ≤ significand := by
                by_contra few
                exact isLeast (small (by omega))
              have cast : ((2 ^ 52 + 1 : Nat) : ℚ) ≤ significand := by exact_mod_cast more
              refine le_trans (mul_le_mul_of_nonneg_right ?_ unit.le) lowHalf.1
              push_cast at cast
              linarith
          refine le_trans (le_of_eq ?_) enough
          rw [zpow_add₀ two, mul_comm]
          norm_num
        have := (zpow_lt_zpow_iff_right₀ one_lt).1 (lt_of_le_of_lt reaches below)
        omega
    unfold nearestBits
    simp only
    rw [isMax, roundDiv_scaled den_pos (n := significand)]
    · omega
    · rw [le_div_iff₀ unit]
      exact lowHalf.1
    · rw [div_le_iff₀ unit]
      exact high
    · intro isOdd
      rw [lt_div_iff₀ unit, div_lt_iff₀ unit]
      exact ⟨lowHalf.2 isOdd, (odd isOdd).2⟩

end ProofWalk.Decimal
