import ProofWalk.Decimal.Layout
import ProofWalk.Proofs.Decimal.Nearest

/-!
# Digits that read back

The digits that are chosen for a double stand for a number that rounds to it. The search for the fewest
digits stops at a decimal inside the interval of such numbers, and with eighteen digits the nearest decimal
always lies inside.

## Main definitions

* `Digits.value` — the number that digits stand for

## Main results

* `shortestFrom_spec` — what the search finds
* `shortest_within` — the digits of a double round to it
-/

namespace ProofWalk.Decimal

/-- The number that digits stand for. -/
def Digits.value (d : Digits) : ℚ := (Nat.ofDigitChars 10 d.digits 0 : ℚ) * 10 ^ (d.point - d.digits.length)

private theorem ten_zpow_pos (n : Int) : (0 : ℚ) < 10 ^ n := by positivity

/-! ### Places -/

/-- A power of ten with a whole exponent as a quotient. -/
theorem ten_zpow_eq (n : Int) :
    (10 : ℚ) ^ n = if 0 ≤ n then ((10 ^ n.toNat : Nat) : ℚ) else 1 / ((10 ^ (-n).toNat : Nat) : ℚ) := by
  split
  · rename_i nonneg
    conv_lhs => rw [← Int.toNat_of_nonneg nonneg]
    rw [zpow_natCast, Nat.cast_pow, Nat.cast_ofNat]
  · rename_i negative
    have isNeg : n = -((-n).toNat : Int) := by omega
    conv_lhs => rw [isNeg]
    rw [zpow_neg, zpow_natCast, Nat.cast_pow, Nat.cast_ofNat, one_div]

/-- A ratio in units of its last place. -/
theorem gridRatio_spec (num : Nat) {den : Nat} (point : Int) (count : Nat) (den_pos : 0 < den) :
    0 < (gridRatio num den point count).2 ∧
      ((gridRatio num den point count).1 : ℚ) / (gridRatio num den point count).2 =
        num / den * 10 ^ ((count : Int) - point) := by
  rw [ten_zpow_eq]
  unfold gridRatio
  simp only
  split
  · refine ⟨den_pos, ?_⟩
    push_cast
    ring
  · refine ⟨by positivity, ?_⟩
    push_cast
    rw [mul_one_div, div_div]

/-- The unit of the last place does not depend on the number. -/
theorem gridRatio_snd (num num' den : Nat) (point : Int) (count : Nat) :
    (gridRatio num den point count).2 = (gridRatio num' den point count).2 := by
  unfold gridRatio
  simp only
  split <;> rfl

/-- Whole numbers of units against a ratio. -/
theorem gridRatio_le_iff (n m : Nat) {den : Nat} (point : Int) (count units : Nat) (den_pos : 0 < den) :
    ((gridRatio n den point count).1 ≤ units * (gridRatio m den point count).2 ↔
        (n : ℚ) / den ≤ units * 10 ^ (point - count)) ∧
      (units * (gridRatio m den point count).2 ≤ (gridRatio n den point count).1 ↔
        units * 10 ^ (point - count) ≤ (n : ℚ) / den) := by
  obtain ⟨positive, scaled⟩ := gridRatio_spec n point count den_pos
  rw [gridRatio_snd m n]
  have pos : (0 : ℚ) < (gridRatio n den point count).2 := by exact_mod_cast positive
  have unit := ten_zpow_pos (point - count)
  have value : (n : ℚ) / den =
      (gridRatio n den point count).1 / (gridRatio n den point count).2 * 10 ^ (point - count) := by
    rw [scaled, mul_assoc, ← zpow_add₀ (by norm_num)]
    simp
  rw [value, mul_le_mul_iff_left₀ unit, mul_le_mul_iff_left₀ unit, div_le_iff₀ pos, le_div_iff₀ pos]
  constructor <;> norm_cast

theorem value_digitsOfUnits (units : Nat) (point : Int) (count : Nat) :
    (digitsOfUnits units point count).value = units * 10 ^ (point - count) := by
  unfold digitsOfUnits Digits.value
  simp only
  rw [natDigits, Nat.ofDigitChars_ten_toDigits]
  congr 2
  ring

/-- Digits without the zeros at their end, which stand behind the point. -/
theorem exists_dropTrailingZeros (digits : List Char) :
    ∃ zeros, digits = dropTrailingZeros digits ++ List.replicate zeros '0' := by
  have split := List.takeWhile_append_dropWhile (p := (· == '0')) (l := digits.reverse)
  have zeros : digits.reverse.takeWhile (· == '0') =
      List.replicate (digits.reverse.takeWhile (· == '0')).length '0' := by
    rw [List.eq_replicate_iff]
    exact ⟨rfl, fun c member => eq_of_beq (List.all_eq_true.1 List.all_takeWhile c member)⟩
  refine ⟨(digits.reverse.takeWhile (· == '0')).length, ?_⟩
  have same := congrArg List.reverse split
  rw [List.reverse_append, List.reverse_reverse, zeros, List.reverse_replicate] at same
  rw [dropTrailingZeros]
  exact same.symm

theorem value_dropTrailingZeros (d : Digits) :
    ({ d with digits := dropTrailingZeros d.digits } : Digits).value = d.value := by
  obtain ⟨zeros, whole⟩ := exists_dropTrailingZeros d.digits
  unfold Digits.value
  simp only
  conv_rhs => rw [whole]
  rw [Nat.ofDigitChars_append, Nat.ofDigitChars_replicate_zero, List.length_append, List.length_replicate]
  have shift : d.point - (dropTrailingZeros d.digits).length =
      (zeros : Int) + (d.point - (((dropTrailingZeros d.digits).length + zeros : Nat) : Int)) := by
    push_cast
    ring
  rw [shift, zpow_add₀ (by norm_num), zpow_natCast]
  push_cast
  ring

/-- A power of ten that is not above a ratio. -/
theorem decimalPoint_spec {num den : Nat} (num_pos : 0 < num) (den_pos : 0 < den) :
    (10 : ℚ) ^ (decimalPoint num den - 1) ≤ num / den := by
  have pos : (0 : ℚ) < den := by exact_mod_cast den_pos
  have positive (n : Nat) : 0 < (natDigits n).length := Nat.length_toDigits_pos
  unfold decimalPoint
  split
  · rename_i whole
    -- the digits of the whole part tell the power
    have quotient : 0 < num / den := Nat.div_pos whole den_pos
    have reaches : 10 ^ ((natDigits (num / den)).length - 1) ≤ num / den := by
      by_cases one : (natDigits (num / den)).length = 1
      · rw [one]
        exact quotient
      · by_contra below
        have short := (Nat.length_toDigits_le_iff (b := 10) (n := num / den)
          (k := (natDigits (num / den)).length - 1) (by decide) (by have := positive (num / den); omega)).2
          (by omega)
        change (natDigits (num / den)).length ≤ _ at short
        have := positive (num / den)
        omega
    rw [le_div_iff₀ pos]
    have cast : ((natDigits (num / den)).length : Int) - 1 =
        (((natDigits (num / den)).length - 1 : Nat) : Int) := by
      have := positive (num / den)
      omega
    rw [cast, zpow_natCast]
    have : 10 ^ ((natDigits (num / den)).length - 1) * den ≤ num :=
      (Nat.mul_le_mul_right den reaches).trans (Nat.div_mul_le_self num den)
    exact_mod_cast this
  -- below one they are the digits of the inverse, which may tell one too many
  · simp only
    split
    · rename_i reaches
      have cast : 2 - ((natDigits (den / num)).length : Int) - 1 =
          -(((natDigits (den / num)).length - 1 : Nat) : Int) := by
        have := positive (den / num)
        omega
      rw [cast, zpow_neg, zpow_natCast, le_div_iff₀ pos, inv_mul_le_iff₀ (by positivity), mul_comm]
      exact_mod_cast reaches
    · have below : den < num * 10 ^ (natDigits (den / num)).length := by
        have digits := (Nat.length_toDigits_le_iff (b := 10) (n := den / num) (by decide)
          (positive (den / num))).1 le_rfl
        rw [Nat.div_lt_iff_lt_mul num_pos] at digits
        rw [Nat.mul_comm]
        exact digits
      have cast : 1 - ((natDigits (den / num)).length : Int) - 1 =
          -((natDigits (den / num)).length : Int) := by
        ring
      rw [cast, zpow_neg, zpow_natCast, le_div_iff₀ pos, inv_mul_le_iff₀ (by positivity), mul_comm]
      exact_mod_cast below.le

/-! ### The search -/

/-- A quotient is rounded to one of the two whole numbers around it, and at most half a unit away. -/
theorem Tie.round_spec (tie : Tie) (num : Nat) {den : Nat} (positive : 0 < den) :
    (tie.round num den = num / den ∨ tie.round num den = num / den + 1) ∧
      2 * (tie.round num den * den) ≤ 2 * num + den ∧ 2 * num ≤ 2 * (tie.round num den * den) + den := by
  have split := Nat.div_add_mod num den
  have rest := Nat.mod_lt num positive
  rw [Nat.mul_comm] at split
  cases tie with
  | even =>
    unfold round roundDiv
    simp only
    split
    · exact ⟨.inl rfl, by omega, by omega⟩
    · split
      · exact ⟨.inr rfl, by rw [Nat.add_mul]; omega, by rw [Nat.add_mul]; omega⟩
      · split
        · exact ⟨.inl rfl, by omega, by omega⟩
        · exact ⟨.inr rfl, by rw [Nat.add_mul]; omega, by rw [Nat.add_mul]; omega⟩
  | up =>
    unfold round
    simp only
    have double : 0 < 2 * den := by omega
    have split' := Nat.div_add_mod (2 * num + den) (2 * den)
    have rest' := Nat.mod_lt (2 * num + den) double
    set rounded := (2 * num + den) / (2 * den)
    have scaled : 2 * den * rounded = 2 * (rounded * den) := by ring
    rw [scaled] at split'
    refine ⟨?_, by omega, by omega⟩
    have low : num / den ≤ rounded := by
      by_contra less
      have := Nat.mul_le_mul_right den (show rounded + 1 ≤ num / den by omega)
      rw [Nat.add_mul] at this
      omega
    have high : rounded ≤ num / den + 1 := by
      by_contra more
      have := Nat.mul_le_mul_right den (show num / den + 2 ≤ rounded by omega)
      rw [Nat.add_mul] at this
      omega
    omega

/-- The search finds a decimal inside the bounds, if the half unit of the last place that it tries is
smaller than the distance to both. -/
theorem shortestFrom_spec (tie : Tie) {low num high den : Nat} {closed : Bool} {point : Int}
    (den_pos : 0 < den) (below : low < num) (above : num < high) (count fuel : Nat)
    (fine : (10 : ℚ) ^ (point - ((count + fuel : Nat) : Int)) / 2 < (num - low) / den ∧
      (10 : ℚ) ^ (point - ((count + fuel : Nat) : Int)) / 2 < (high - num) / den) :
    ∃ units places, shortestFrom tie low num high den closed point count fuel =
        digitsOfUnits units point places ∧
      (low : ℚ) / den ≤ units * 10 ^ (point - places) ∧ units * 10 ^ (point - places) ≤ (high : ℚ) / den ∧
      (closed = false →
        (low : ℚ) / den < units * 10 ^ (point - places) ∧
          units * 10 ^ (point - places) < (high : ℚ) / den) := by
  have pos : (0 : ℚ) < den := by exact_mod_cast den_pos
  have lowLt : (low : ℚ) / den < num / den := div_lt_div_of_pos_right (by exact_mod_cast below) pos
  have highLt : (num : ℚ) / den < high / den := div_lt_div_of_pos_right (by exact_mod_cast above) pos
  induction fuel generalizing count with
  | zero =>
    obtain ⟨positive, scaled⟩ := gridRatio_spec num point count den_pos
    obtain ⟨-, least, most⟩ := tie.round_spec (gridRatio num den point count).1 positive
    refine ⟨tie.round (gridRatio num den point count).1 (gridRatio num den point count).2, count, rfl, ?_⟩
    set rounded := tie.round (gridRatio num den point count).1 (gridRatio num den point count).2
    -- the distance from the number is at most half a unit
    have scaledPos : (0 : ℚ) < (gridRatio num den point count).2 := by exact_mod_cast positive
    have unit := ten_zpow_pos (point - count)
    have value : (num : ℚ) / den =
        (gridRatio num den point count).1 / (gridRatio num den point count).2 * 10 ^ (point - count) := by
      rw [scaled, mul_assoc, ← zpow_add₀ (by norm_num)]
      simp
    have nearLow : ((rounded : ℚ) - 1 / 2) * 10 ^ (point - count) ≤ num / den := by
      rw [value]
      refine mul_le_mul_of_nonneg_right ?_ unit.le
      rw [le_div_iff₀ scaledPos]
      have cast : (2 * (rounded * (gridRatio num den point count).2) : ℚ) ≤
          2 * (gridRatio num den point count).1 + (gridRatio num den point count).2 := by exact_mod_cast least
      linarith
    have nearHigh : (num : ℚ) / den ≤ ((rounded : ℚ) + 1 / 2) * 10 ^ (point - count) := by
      rw [value]
      refine mul_le_mul_of_nonneg_right ?_ unit.le
      rw [div_le_iff₀ scaledPos]
      have cast : (2 * (gridRatio num den point count).1 : ℚ) ≤
          2 * (rounded * (gridRatio num den point count).2) + (gridRatio num den point count).2 := by
        exact_mod_cast most
      linarith
    rw [Nat.add_zero, sub_div, sub_div] at fine
    have strict : (low : ℚ) / den < rounded * 10 ^ (point - count) ∧
        rounded * 10 ^ (point - count) < (high : ℚ) / den := by
      constructor <;> linarith [fine.1, fine.2]
    exact ⟨strict.1.le, strict.2.le, fun _ => strict⟩
  | succ fuel ih =>
    obtain ⟨positive, -⟩ := gridRatio_spec num point count den_pos
    have lowIff (units : Nat) := (gridRatio_le_iff low num point count units den_pos).1
    have lowIff' (units : Nat) := (gridRatio_le_iff low num point count units den_pos).2
    have highIff (units : Nat) := (gridRatio_le_iff high num point count units den_pos).2
    have highIff' (units : Nat) := (gridRatio_le_iff high num point count units den_pos).1
    have numIff (units : Nat) := gridRatio_le_iff num num point count units den_pos
    set scaledNum := (gridRatio num den point count).1 with isNum
    set scaledDen := (gridRatio num den point count).2 with isDen
    -- the two decimals around the number
    have before : ((scaledNum / scaledDen : Nat) : ℚ) * 10 ^ (point - count) ≤ num / den :=
      (numIff _).2.1 (Nat.div_mul_le_self _ _)
    have behind : (num : ℚ) / den ≤ ((scaledNum / scaledDen + 1 : Nat) : ℚ) * 10 ^ (point - count) := by
      refine (numIff _).1.1 (le_of_lt ?_)
      rw [Nat.mul_comm]
      exact Nat.lt_mul_div_succ _ positive
    have fitsBefore (fits : (if closed then
        (gridRatio low den point count).1 ≤ scaledNum / scaledDen * scaledDen
        else (gridRatio low den point count).1 < scaledNum / scaledDen * scaledDen)) :
        (low : ℚ) / den ≤ ((scaledNum / scaledDen : Nat) : ℚ) * 10 ^ (point - count) ∧
        ((scaledNum / scaledDen : Nat) : ℚ) * 10 ^ (point - count) ≤ (high : ℚ) / den ∧
        (closed = false → (low : ℚ) / den < ((scaledNum / scaledDen : Nat) : ℚ) * 10 ^ (point - count) ∧
          ((scaledNum / scaledDen : Nat) : ℚ) * 10 ^ (point - count) < (high : ℚ) / den) := by
      cases closed with
      | true => exact ⟨(lowIff _).1 fits, (before.trans_lt highLt).le, fun isOpen => by cases isOpen⟩
      | false =>
        have strict := lt_of_not_ge fun le => Nat.not_le_of_lt fits ((lowIff' _).2 le)
        exact ⟨strict.le, (before.trans_lt highLt).le, fun _ => ⟨strict, before.trans_lt highLt⟩⟩
    have fitsBehind (fits : (if closed then
        (scaledNum / scaledDen + 1) * scaledDen ≤ (gridRatio high den point count).1
        else (scaledNum / scaledDen + 1) * scaledDen < (gridRatio high den point count).1)) :
        (low : ℚ) / den ≤ ((scaledNum / scaledDen + 1 : Nat) : ℚ) * 10 ^ (point - count) ∧
        ((scaledNum / scaledDen + 1 : Nat) : ℚ) * 10 ^ (point - count) ≤ (high : ℚ) / den ∧
        (closed = false → (low : ℚ) / den < ((scaledNum / scaledDen + 1 : Nat) : ℚ) * 10 ^ (point - count) ∧
          ((scaledNum / scaledDen + 1 : Nat) : ℚ) * 10 ^ (point - count) < (high : ℚ) / den) := by
      cases closed with
      | true => exact ⟨(lowLt.trans_le behind).le, (highIff _).1 fits, fun isOpen => by cases isOpen⟩
      | false =>
        have strict := lt_of_not_ge fun le => Nat.not_le_of_lt fits ((highIff' _).2 le)
        exact ⟨(lowLt.trans_le behind).le, strict.le, fun _ => ⟨lowLt.trans_le behind, strict⟩⟩
    have again : ((count + 1 + fuel : Nat) : Int) = ((count + (fuel + 1) : Nat) : Int) := by
      push_cast
      ring
    rw [shortestFrom]
    simp only [← isNum, ← isDen, beq_iff_eq]
    by_cases exact_ : scaledNum / scaledDen * scaledDen = scaledNum
    · have same : ((scaledNum / scaledDen : Nat) : ℚ) * 10 ^ (point - count) = num / den :=
        le_antisymm before ((numIff _).1.1 exact_.ge)
      rw [if_pos exact_]
      refine ⟨_, _, rfl, ?_⟩
      rw [same]
      exact ⟨lowLt.le, highLt.le, fun _ => ⟨lowLt, highLt⟩⟩
    rw [if_neg exact_]
    by_cases fits : (if closed then (gridRatio low den point count).1 ≤ scaledNum / scaledDen * scaledDen
        else (gridRatio low den point count).1 < scaledNum / scaledDen * scaledDen) <;>
      by_cases fits' : (if closed then
          (scaledNum / scaledDen + 1) * scaledDen ≤ (gridRatio high den point count).1
        else (scaledNum / scaledDen + 1) * scaledDen < (gridRatio high den point count).1) <;>
      simp only [fits, fits', decide_true, decide_false, Bool.and_true, Bool.and_false, if_true,
        Bool.false_eq_true, if_false]
    · refine ⟨_, _, rfl, ?_⟩
      rcases (tie.round_spec scaledNum positive).1 with down | up
      · rw [down]
        exact fitsBefore fits
      · rw [up]
        exact fitsBehind fits'
    · exact ⟨_, _, rfl, fitsBefore fits⟩
    · exact ⟨_, _, rfl, fitsBehind fits'⟩
    · exact ih (count + 1) (by rw [again]; exact fine)

/-- A ratio and the unit of its last bits. -/
private theorem dyadicRatio_mul (significand : Nat) (exponent : Int) :
    (dyadicRatio significand exponent).1 =
      significand * (if 0 ≤ exponent then (dyadicRatio 1 exponent).1 else 1) ∧
    (((if 0 ≤ exponent then (dyadicRatio 1 exponent).1 else 1) : Nat) : ℚ) /
      (dyadicRatio significand exponent).2 = 2 ^ exponent := by
  rw [two_zpow_eq]
  unfold dyadicRatio
  split
  · simp
  · simp

/-- The digits of a positive double stand for a number that rounds to it. -/
theorem shortest_within (tie : Tie) {significand : Nat} {exponent : Int} (positive : 0 < significand)
    (bound : significand < 2 ^ 53) :
    Within significand exponent (shortest tie significand exponent).value := by
  obtain ⟨den_pos, ratio⟩ := dyadicRatio_spec (4 * significand) (exponent - 2)
  obtain ⟨whole, scaled⟩ := dyadicRatio_mul (4 * significand) (exponent - 2)
  have half : (significand == 2 ^ 52 && exponent != -1074) =
      decide (significand = 2 ^ 52 ∧ exponent ≠ -1074) := by
    rw [Bool.decide_and]
    simp [bne, beq_eq_decide]
  unfold shortest
  simp only [half]
  rw [value_dropTrailingZeros]
  set num := (dyadicRatio (4 * significand) (exponent - 2)).1
  set den := (dyadicRatio (4 * significand) (exponent - 2)).2
  set scale := if 0 ≤ exponent - 2 then (dyadicRatio 1 (exponent - 2)).1 else 1
  have pos : (0 : ℚ) < den := by exact_mod_cast den_pos
  have unit := two_zpow_pos (exponent - 2)
  have quarter : (2 : ℚ) ^ exponent = 4 * 2 ^ (exponent - 2) := by
    rw [show (4 : ℚ) = 2 ^ (2 : Int) by norm_num, ← zpow_add₀ two_ne_zero]
    congr 1
    ring
  have scale_pos : 0 < scale := by
    have : (0 : ℚ) < scale := by
      rw [div_eq_iff pos.ne'] at scaled
      rw [scaled]
      positivity
    exact_mod_cast this
  -- the bounds in units of the last place but two
  obtain ⟨c, isLow, isGap, one_le, le_two⟩ : ∃ c : Nat,
      (if decide (significand = 2 ^ 52 ∧ exponent ≠ -1074) = true then num - scale else num - 2 * scale) =
        num - c * scale ∧ gapBelow significand exponent = c / 4 ∧ 1 ≤ c ∧ c ≤ 2 := by
    unfold gapBelow
    by_cases power : significand = 2 ^ 52 ∧ exponent ≠ -1074
    · exact ⟨1, by rw [if_pos (decide_eq_true power), one_mul], by rw [if_pos power]; norm_num, by decide,
        by decide⟩
    · exact ⟨2, by rw [if_neg (by simpa using power)], by rw [if_neg power]; norm_num, by decide, by decide⟩
  rw [isLow]
  have less : c * scale < num := by
    rw [whole]
    refine Nat.mul_lt_mul_of_pos_right ?_ scale_pos
    omega
  have castLow : ((num - c * scale : Nat) : ℚ) = num - c * scale := by
    rw [Nat.cast_sub less.le, Nat.cast_mul]
  have isNum : (num : ℚ) / den = 4 * significand * 2 ^ (exponent - 2) := by
    rw [ratio]
    push_cast
    rfl
  have units (k : ℚ) : k * scale / den = k * 2 ^ (exponent - 2) := by rw [mul_div_assoc, scaled]
  have castOne : (1 : ℚ) ≤ c := by exact_mod_cast one_le
  -- with eighteen digits the unit is finer than the interval
  have fine : (10 : ℚ) ^ (decimalPoint num den - ((1 + 17 : Nat) : Int)) / 2 < 2 ^ (exponent - 2) := by
    have low := decimalPoint_spec (Nat.zero_lt_of_lt less) den_pos
    have shift : decimalPoint num den - ((1 + 17 : Nat) : Int) = decimalPoint num den - 1 + -17 := by
      push_cast
      ring
    rw [isNum] at low
    rw [shift, zpow_add₀ (by norm_num)]
    have most : (significand : ℚ) ≤ 2 ^ 53 := by exact_mod_cast bound.le
    have upper : (10 : ℚ) ^ (decimalPoint num den - 1) ≤ 2 ^ 55 * 2 ^ (exponent - 2) :=
      low.trans (mul_le_mul_of_nonneg_right (by linarith) unit.le)
    have tiny : (2 : ℚ) ^ 55 * 10 ^ (-17 : Int) / 2 < 1 := by norm_num
    calc (10 : ℚ) ^ (decimalPoint num den - 1) * 10 ^ (-17 : Int) / 2
        ≤ 2 ^ 55 * 2 ^ (exponent - 2) * 10 ^ (-17 : Int) / 2 := by
          have small : (0 : ℚ) ≤ 10 ^ (-17 : Int) := by positivity
          linarith [mul_le_mul_of_nonneg_right upper small]
      _ = 2 ^ 55 * 10 ^ (-17 : Int) / 2 * 2 ^ (exponent - 2) := by ring
      _ < 1 * 2 ^ (exponent - 2) := mul_lt_mul_of_pos_right tiny unit
      _ = _ := one_mul _
  obtain ⟨found, places, isFound, low, high, strict⟩ := @shortestFrom_spec tie (num - c * scale) num
    (num + 2 * scale) den (significand % 2 == 0) (decimalPoint num den) den_pos
    (Nat.sub_lt_self (Nat.mul_pos one_le scale_pos) less.le) (by omega) 1 17 (by
      constructor
      · refine fine.trans_le ?_
        rw [castLow, sub_sub_cancel, units]
        exact le_mul_of_one_le_left unit.le castOne
      · refine fine.trans_le ?_
        rw [Nat.cast_add, add_sub_cancel_left, Nat.cast_mul, units]
        exact le_mul_of_one_le_left unit.le (by norm_num))
  rw [isFound, value_digitsOfUnits]
  rw [castLow, sub_div, units, isNum] at low strict
  rw [Nat.cast_add, add_div, Nat.cast_mul, units, isNum] at high strict
  push_cast at high strict
  have sameLow : ((significand : ℚ) - gapBelow significand exponent) * 2 ^ exponent =
      4 * significand * 2 ^ (exponent - 2) - c * 2 ^ (exponent - 2) := by
    rw [isGap, quarter]
    ring
  have sameHigh : ((significand : ℚ) + 1 / 2) * 2 ^ exponent =
      4 * significand * 2 ^ (exponent - 2) + 2 * 2 ^ (exponent - 2) := by
    rw [quarter]
    ring
  refine ⟨by rw [sameLow]; exact low, by rw [sameHigh]; exact high, fun isOdd => ?_⟩
  rw [sameLow, sameHigh]
  exact strict (by simp [isOdd])

end ProofWalk.Decimal
