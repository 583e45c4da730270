import ProofWalk.Proofs.Decimal.Bits
import ProofWalk.Proofs.Exact

/-!
# Comparisons

What a walk rests on when it compares residuals with its threshold. It asks for less than an order, so
that it holds of doubles as well: they round, zero has two signs, and what is no number compares with
nothing.

## Main definitions

* `LawfulComparison` — comparisons that a walk can rest on
* the instances on real numbers and on doubles
-/

namespace ProofWalk

/-- Comparisons that a walk can rest on. -/
class LawfulComparison (K : Type) [Scalar K] : Prop where
  not_lt_of_le {x y : K} (le : x ≤ y) : ¬y < x
  zero_le_one : (0 : K) ≤ 1
  zero_le_tenth {x : K} (nonneg : 0 ≤ x) : 0 ≤ x / Scalar.ofNat 10
  zero_le_max {x : K} (y : K) (nonneg : 0 ≤ x) : 0 ≤ Scalar.max x y
  /-- A share of nothing exceeds only what is below zero. -/
  not_lt_zero_div {x : K} (d : K) (nonneg : ¬x < 0) : ¬x < 0 / d
  /-- What is passed on along a link without weight lifts nothing above a threshold. -/
  lt_of_weightless {x y weight d : K} (scale r : K) (weightless : (weight == 0) = true)
    (above : x < (y + scale * weight * r) / d) : x < y / d

instance : LawfulComparison ℝ where
  not_lt_of_le := not_lt_of_ge
  zero_le_one := zero_le_one
  zero_le_tenth nonneg := div_nonneg nonneg (Nat.cast_nonneg 10)
  zero_le_max _ nonneg := le_max_of_le_left nonneg
  not_lt_zero_div _ nonneg := by rwa [zero_div]
  lt_of_weightless _ _ weightless above := by
    rwa [eq_of_beq weightless, mul_zero, zero_mul, add_zero] at above

/-! ### Doubles -/

namespace Decimal

open Float.Model Float.Model.UnpackedFloat

/-- What a double stands for. -/
abbrev valueOf (x : Float) : UnpackedFloat := x.toModel.unpack

/-- Whether a value is zero, of either sign. -/
def IsZero : UnpackedFloat → Prop
  | .zero _ => True
  | _ => False

/-- Whether a value is zero, of either sign, or above it. -/
def IsNonneg : UnpackedFloat → Prop
  | .zero _ | .finite .positive .. | .infinity .positive => True
  | _ => False

theorem isZero_iff {f : UnpackedFloat} : IsZero f ↔ ∃ sign, f = .zero sign := by
  cases f <;> simp [IsZero]

/-! #### Comparing -/

section

variable {x y z : Float}

theorem lt_iff_compare : x < y ↔ (valueOf x).compare (valueOf y) = some .lt :=
  decide_eq_true_iff.trans beq_iff_eq

theorem le_iff_compare : x ≤ y ↔ ((valueOf x).compare (valueOf y)).any (·.isLE) = true :=
  decide_eq_true_iff

theorem zero_le_iff : 0 ≤ x ↔ IsNonneg (valueOf x) := by
  rw [le_iff_compare, show valueOf 0 = .zero .positive from rfl]
  rcases valueOf x with (_ | _) | _ | _ | ⟨_ | _, _, _, _⟩ <;> simp [UnpackedFloat.compare, IsNonneg]

theorem isZero_of_beq (same : (x == 0) = true) : IsZero (valueOf x) := by
  have equal : (valueOf x).compare (.zero .positive) = some .eq := eq_of_beq same
  rcases found : valueOf x with (_ | _) | _ | _ | ⟨_ | _, _, _, _⟩ <;> rw [found] at equal <;>
    first | trivial | cases equal

/-- Magnitudes compared the other way round. -/
private theorem then_swap (e e' : Int) (m m' : Nat) :
    (compare e' e).then (compare m' m) = ((compare e e').then (compare m m')).swap := by
  rw [Ordering.swap_then, ← Std.OrientedCmp.eq_swap, ← Std.OrientedCmp.eq_swap]

/-- Values compared the other way round. -/
theorem compare_swap (f g : UnpackedFloat) : g.compare f = (f.compare g).map Ordering.swap := by
  rcases f with (_ | _) | _ | _ | ⟨s, m, e, _⟩ <;> rcases g with (_ | _) | _ | _ | ⟨s', m', e', _⟩
  case finite.finite =>
    cases s <;> cases s' <;> simp [UnpackedFloat.compare, then_swap e e' m m']
  case finite.zero => cases s <;> rfl
  case finite.infinity.negative => cases s <;> rfl
  case finite.infinity.positive => cases s <;> rfl
  case zero.finite => cases s' <;> rfl
  case infinity.negative.finite => cases s' <;> rfl
  case infinity.positive.finite => cases s' <;> rfl
  all_goals rfl

theorem not_lt_of_le (le : x ≤ y) : ¬y < x := by
  rw [le_iff_compare] at le
  rw [lt_iff_compare, compare_swap (valueOf x)]
  generalize (valueOf x).compare (valueOf y) = order at le
  intro lt
  obtain ⟨order, rfl, swapped⟩ := Option.map_eq_some_iff.1 lt
  obtain rfl : order = .gt := Ordering.swap_inj.1 swapped
  cases le

/-- Nothing is below what is no number. -/
theorem not_lt_of_nan (nan : valueOf y = .notANumber) : ¬x < y := by
  rw [lt_iff_compare, nan]
  cases valueOf x <;> simp [UnpackedFloat.compare]

/-- Zeros of either sign compare alike. -/
theorem lt_congr_of_zero (zero : IsZero (valueOf y)) (zero' : IsZero (valueOf z)) : x < y ↔ x < z := by
  obtain ⟨sign, isY⟩ := isZero_iff.1 zero
  obtain ⟨sign', isZ⟩ := isZero_iff.1 zero'
  rw [lt_iff_compare, lt_iff_compare, isY, isZ]
  rcases valueOf x with (_ | _) | _ | _ | ⟨_ | _, _, _, _⟩ <;> rfl

/-- What is above something that is not below zero is not below zero. -/
theorem zero_le_of_lt (nonneg : 0 ≤ x) (lt : x < y) : 0 ≤ y := by
  rw [zero_le_iff] at nonneg ⊢
  rw [lt_iff_compare] at lt
  generalize valueOf x = f at nonneg lt
  generalize valueOf y = g at lt ⊢
  unfold IsNonneg at nonneg
  split at nonneg
  · rcases g with (_ | _) | _ | _ | ⟨_ | _, _, _, _⟩ <;> first | trivial | cases lt
  · rcases g with (_ | _) | _ | _ | ⟨_ | _, _, _, _⟩ <;> first | trivial | cases lt
  · rcases g with (_ | _) | _ | _ | ⟨_ | _, _, _, _⟩ <;> first | trivial | cases lt
  · exact nonneg.elim

end

/-! #### Results -/

section

variable {f g : UnpackedFloat}

/-- Zeros keep what they stand for. -/
theorem isZero_pack (zero : IsZero f) : IsZero (Float.Model.pack f).unpack := by
  obtain ⟨_ | _, rfl⟩ := isZero_iff.1 zero <;> trivial

theorem nan_pack (nan : f = .notANumber) : (Float.Model.pack f).unpack = .notANumber := by
  rw [nan]
  rfl

/-- A word without a sign whose exponent is not the highest stands for something that is not below
zero. -/
private theorem isNonneg_unpack {b : BitVec 64} (below : b.toNat < 2047 * 2 ^ 52) :
    IsNonneg (UnpackedFloat.unpack Format.binary64 b) := by
  obtain ⟨sign, exponent, -⟩ := toNat_unpack b
  have unsigned : @unpackSign Format.binary64 b = 0#1 := by
    rw [← BitVec.toNat_inj, sign]
    change _ = 0
    omega
  have notAll : @unpackExponent Format.binary64 b ≠ -1#11 := by
    rw [ne_eq, ← BitVec.toNat_inj, exponent]
    change ¬_ = 2047
    omega
  unfold UnpackedFloat.unpack
  simp only [unsigned]
  rw [if_neg notAll]
  split
  · split <;> trivial
  · trivial

/-- What is not below zero keeps its sign. -/
theorem isNonneg_pack (nonneg : IsNonneg f) : IsNonneg (Float.Model.pack f).unpack := by
  unfold IsNonneg at nonneg
  split at nonneg
  case h_1 sign => cases sign <;> trivial
  case h_3 => trivial
  case h_4 => exact nonneg.elim
  rename_i mantissa exponent positive
  change IsNonneg (UnpackedFloat.unpack Format.binary64 (UnpackedFloat.pack Format.binary64 _))
  simp only [UnpackedFloat.pack]
  split
  · trivial
  rename_i fits
  split <;> refine isNonneg_unpack ?_ <;> rw [toNat_packComponents]
  · have fraction : (BitVec.ofNat 52 mantissa).toNat < 2 ^ 52 := BitVec.isLt _
    have exponents : (2 : Nat) ^ Format.binary64.exponentBits = 2048 := rfl
    change 0 * 2 ^ 63 + (BitVec.ofNat 11 _).toNat * 2 ^ 52 + (BitVec.ofNat 52 mantissa).toNat < _
    rw [BitVec.toNat_ofNat, Nat.mod_eq_of_lt (by omega)]
    omega
  · have fraction : (BitVec.ofNat 52 mantissa).toNat < 2 ^ 52 := BitVec.isLt _
    change 0 * 2 ^ 63 + 0 * 2 ^ 52 + (BitVec.ofNat 52 mantissa).toNat < _
    omega

/-- Rounding keeps the sign. -/
theorem isNonneg_round (mantissa : Nat) (exponent : Int) (accuracy : Accuracy) :
    IsNonneg (roundWithAccuracy .binary64 .positive mantissa exponent accuracy) := by
  unfold roundWithAccuracy
  simp only
  split <;> trivial

/-- A share of what is not below zero is not below zero. -/
theorem isNonneg_div (nonneg : IsNonneg f) {mantissa : Nat} (positive : 0 < mantissa) (exponent : Int) :
    IsNonneg (UnpackedFloat.div .binary64 f (.finite .positive mantissa exponent positive)) := by
  unfold IsNonneg at nonneg
  split at nonneg
  · trivial
  · exact isNonneg_round _ _ _
  · trivial
  · exact nonneg.elim

theorem div_nan (g : UnpackedFloat) : UnpackedFloat.div .binary64 .notANumber g = .notANumber := by
  rw [UnpackedFloat.div]

theorem add_nan (f : UnpackedFloat) : UnpackedFloat.add .binary64 f .notANumber = .notANumber := by
  cases f <;> rfl

theorem mul_nan (g : UnpackedFloat) : UnpackedFloat.mul .binary64 .notANumber g = .notANumber := by
  rw [UnpackedFloat.mul]

/-- A product with zero is zero or no number. -/
theorem mul_zero_cases (zero : IsZero f) (g : UnpackedFloat) :
    (IsZero (UnpackedFloat.mul .binary64 f g) ∨ UnpackedFloat.mul .binary64 f g = .notANumber) ∧
    (IsZero (UnpackedFloat.mul .binary64 g f) ∨ UnpackedFloat.mul .binary64 g f = .notANumber) := by
  obtain ⟨sign, rfl⟩ := isZero_iff.1 zero
  cases g <;> simp [UnpackedFloat.mul, IsZero]

/-- A share of zero is zero or no number, whatever the sign of the zero. -/
theorem zero_div_cases (zero : IsZero f) (zero' : IsZero g) (h : UnpackedFloat) :
    IsZero (UnpackedFloat.div .binary64 f h) ∧ IsZero (UnpackedFloat.div .binary64 g h) ∨
      UnpackedFloat.div .binary64 f h = .notANumber := by
  obtain ⟨sign, rfl⟩ := isZero_iff.1 zero
  obtain ⟨sign', rfl⟩ := isZero_iff.1 zero'
  cases h <;> simp [UnpackedFloat.div, IsZero]

/-- Adding zero changes nothing but the sign of a zero. -/
theorem add_zero_cases (f : UnpackedFloat) (zero : IsZero g) :
    UnpackedFloat.add .binary64 f g = f ∨ IsZero f ∧ IsZero (UnpackedFloat.add .binary64 f g) := by
  obtain ⟨sign, rfl⟩ := isZero_iff.1 zero
  rcases f with _ | _ | sign' | _
  · exact .inl rfl
  · exact .inl rfl
  · refine .inr ⟨trivial, ?_⟩
    rw [UnpackedFloat.add]
    split <;> trivial
  · exact .inl rfl

end

/-! #### Sums, products and shares -/

section

variable {x y z d t weight : Float}

/-- A product with a zero in it is zero or no number. -/
theorem product_of_weightless (zero : IsZero (valueOf weight)) (scale r : Float) :
    IsZero (valueOf (scale * weight * r)) ∨ valueOf (scale * weight * r) = .notANumber := by
  rcases (mul_zero_cases zero (valueOf scale)).2 with inner | nan
  · exact (mul_zero_cases (isZero_pack inner) (valueOf r)).1.imp isZero_pack nan_pack
  · refine .inr (nan_pack ?_)
    change UnpackedFloat.mul _ (Float.Model.pack _).unpack _ = _
    rw [nan_pack nan, mul_nan]

/-- A share of zero is no number, or a zero as a share of another zero is. -/
theorem lt_div_of_zero (zero : IsZero (valueOf y)) (zero' : IsZero (valueOf z))
    (above : x < y / d) : x < z / d := by
  rcases zero_div_cases zero zero' (valueOf d) with ⟨isZero, isZero'⟩ | nan
  · exact (lt_congr_of_zero (isZero_pack isZero) (isZero_pack isZero')).1 above
  · exact absurd above (not_lt_of_nan (nan_pack nan))

theorem not_lt_div_of_nan (nan : valueOf y = .notANumber) : ¬x < y / d := by
  refine not_lt_of_nan (nan_pack ?_)
  change UnpackedFloat.div _ (valueOf y) _ = _
  rw [nan, div_nan]

/-- Only what is below zero is below a share of zero. -/
theorem not_lt_zero_div (d : Float) (nonneg : ¬x < 0) : ¬x < 0 / d := by
  have zero : IsZero (valueOf 0) := trivial
  rcases zero_div_cases zero zero (valueOf d) with ⟨isZero, -⟩ | nan
  · exact fun above => nonneg ((lt_congr_of_zero (isZero_pack isZero) zero).1 above)
  · exact not_lt_of_nan (nan_pack nan)

/-- To add zero, or what is no number, lifts nothing. -/
theorem lt_div_of_add (cases : IsZero (valueOf t) ∨ valueOf t = .notANumber)
    (above : x < (y + t) / d) : x < y / d := by
  rcases cases with zero | nan
  · rcases add_zero_cases (valueOf y) zero with same | ⟨isZero, isZero'⟩
    · have equal : y + t = y :=
        (congrArg (fun f => (⟨Float.Model.pack f⟩ : Float)) same).trans (ofBits_toBits y)
      rwa [equal] at above
    · exact lt_div_of_zero (isZero_pack isZero') isZero above
  · refine absurd above (not_lt_div_of_nan (nan_pack ?_))
    change UnpackedFloat.add _ _ (valueOf t) = _
    rw [nan, add_nan]

theorem zero_le_tenth (nonneg : 0 ≤ x) : 0 ≤ x / Float.ofNat 10 := by
  have ten : valueOf (Float.ofNat 10) = .finite .positive (10 * 2 ^ 49) (-49) (by decide) := rfl
  refine zero_le_iff.2 (isNonneg_pack ?_)
  change IsNonneg (UnpackedFloat.div _ (valueOf x) (valueOf (Float.ofNat 10)))
  rw [ten]
  exact isNonneg_div (zero_le_iff.1 nonneg) _ _

theorem zero_le_max (y : Float) (nonneg : 0 ≤ x) : 0 ≤ Scalar.max x y := by
  have number : x.isNaN = false := by
    have isNonneg := zero_le_iff.1 nonneg
    change (valueOf x).isNaN = false
    revert isNonneg
    cases valueOf x <;> simp [IsNonneg, UnpackedFloat.isNaN]
  change 0 ≤ if x.isNaN then y else if y.isNaN then x else if x < y then y else x
  rw [number, if_neg Bool.false_ne_true]
  split
  · exact nonneg
  split
  · rename_i above
    exact zero_le_of_lt nonneg above
  · exact nonneg

end

end Decimal

open Decimal in
instance : LawfulComparison Float where
  not_lt_of_le := Decimal.not_lt_of_le
  zero_le_one := by decide
  zero_le_tenth := Decimal.zero_le_tenth
  zero_le_max := Decimal.zero_le_max
  not_lt_zero_div := Decimal.not_lt_zero_div
  lt_of_weightless scale r weightless :=
    lt_div_of_add (product_of_weightless (isZero_of_beq weightless) scale r)

end ProofWalk
