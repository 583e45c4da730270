import Mathlib
import ProofWalk.Decimal.Double

/-!
# The bits of a double

A double is determined by its bits, and its bits are those of its sign, its exponent and its fraction.

## Main results

* `ofBits_toBits` — a double is that of its bits
* `Double.toBits_of_finite` — the bits of a finite double
* `eq_one_of_bne` — a double that compares equal to one is one
-/

namespace ProofWalk.Decimal

open Float.Model Float.Model.UnpackedFloat

/-! ### Words -/

/-- The parts of a word as numbers. -/
theorem toNat_unpack (b : BitVec 64) :
    (@unpackSign Format.binary64 b).toNat = b.toNat / 2 ^ 63 ∧
      (@unpackExponent Format.binary64 b).toNat = b.toNat / 2 ^ 52 % 2 ^ 11 ∧
      (@unpackMantissa Format.binary64 b).toNat = b.toNat % 2 ^ 52 := by
  have bound : b.toNat < 2 ^ 64 := b.isLt
  refine ⟨?_, ?_, ?_⟩
  · have small : b.toNat / 2 ^ 63 < 2 := by omega
    simp only [unpackSign, BitVec.extractLsb, BitVec.toNat_cast, BitVec.extractLsb'_toNat,
      Nat.shiftRight_eq_div_pow]
    exact Nat.mod_eq_of_lt small
  · simp [unpackExponent, BitVec.extractLsb, Nat.shiftRight_eq_div_pow]
  · simp [unpackMantissa, BitVec.extractLsb]

/-- The number of a word that is put together. -/
theorem toNat_packComponents (s : Sign) (e : BitVec 11) (m : BitVec 52) :
    (packComponents Format.binary64 s e m).toNat =
      s.toBitVec.toNat * 2 ^ 63 + e.toNat * 2 ^ 52 + m.toNat := by
  have first : (s.toBitVec ++ e).toNat = s.toBitVec.toNat * 2 ^ 11 + e.toNat := by
    rw [BitVec.toNat_append, Nat.shiftLeft_eq, Nat.mul_comm, Nat.two_pow_add_eq_or_of_lt e.isLt]
  have whole : (s.toBitVec ++ e ++ m).toNat = (s.toBitVec ++ e).toNat * 2 ^ 52 + m.toNat := by
    rw [BitVec.toNat_append, Nat.shiftLeft_eq, Nat.mul_comm, Nat.two_pow_add_eq_or_of_lt m.isLt]
  change (s.toBitVec ++ e ++ m).toNat = _
  rw [whole, first]
  omega

/-- A word is made of its parts. -/
theorem packComponents_of_parts {b : BitVec 64} {e : BitVec 11} {m : BitVec 52}
    (exponent : @unpackExponent Format.binary64 b = e)
    (mantissa : @unpackMantissa Format.binary64 b = m) :
    packComponents Format.binary64 (Sign.ofBitVec (@unpackSign Format.binary64 b)) e m = b := by
  obtain ⟨sign, isExponent, isMantissa⟩ := toNat_unpack b
  have bound : b.toNat < 2 ^ 64 := b.isLt
  have isSign : (Sign.ofBitVec (@unpackSign Format.binary64 b)).toBitVec.toNat =
      b.toNat / 2 ^ 63 := by
    rw [← sign]
    have bit : @unpackSign Format.binary64 b = 0#1 ∨
        @unpackSign Format.binary64 b = 1#1 := by
      rw [← BitVec.toNat_inj, ← BitVec.toNat_inj, sign]
      change _ = 0 ∨ _ = 1
      omega
    rcases bit with zero | one
    · rw [zero]
      rfl
    · rw [one]
      rfl
  subst exponent mantissa
  rw [← BitVec.toNat_inj, toNat_packComponents, isSign, isExponent, isMantissa]
  omega

/-- A valid word is that of what it stands for. -/
theorem pack_unpack {b : BitVec 64} (valid : Format.binary64.Valid b) :
    UnpackedFloat.pack Format.binary64 (UnpackedFloat.unpack Format.binary64 b) = b := by
  have below : (@unpackMantissa Format.binary64 b).toNat < 2 ^ 52 := BitVec.isLt _
  have bounded : (@unpackExponent Format.binary64 b).toNat < 2 ^ 11 := BitVec.isLt _
  unfold UnpackedFloat.unpack
  simp only
  split
  · rename_i special
    split
    · rename_i none
      exact packComponents_of_parts special none
    · rename_i some
      exact (valid.eq_packedNaN special some).symm
  rename_i finite
  split
  · rename_i low
    split
    · rename_i none
      exact packComponents_of_parts low none
    · rename_i some
      -- a fraction without the leading bit
      have nonzero : (@unpackMantissa Format.binary64 b).toNat ≠ 0 := fun zero =>
        some (BitVec.eq_of_toNat_eq zero)
      have digits : ¬(@unpackMantissa Format.binary64 b).toNat.log2 + 1 =
          Format.binary64.mantissaBits := by
        have := (Nat.log2_lt nonzero).2 below
        change ¬_ = 53
        omega
      simp only [UnpackedFloat.pack, low]
      rw [if_neg (by decide), if_neg digits, BitVec.ofNat_toNat, BitVec.setWidth_eq]
      exact packComponents_of_parts low rfl
  · rename_i normal
    have positive : 0 < (@unpackExponent Format.binary64 b).toNat := by
      rw [Nat.pos_iff_ne_zero]
      exact fun zero => normal (BitVec.eq_of_toNat_eq zero)
    have notAll : (@unpackExponent Format.binary64 b).toNat ≠ 2047 := fun all =>
      finite (BitVec.eq_of_toNat_eq all)
    have significand : (1#1 ++ @unpackMantissa Format.binary64 b).toNat =
        2 ^ 52 + (@unpackMantissa Format.binary64 b).toNat := by
      rw [BitVec.toNat_append, Nat.shiftLeft_eq, Nat.mul_comm, ← Nat.two_pow_add_eq_or_of_lt below]
      rfl
    have digits : (2 ^ 52 + (@unpackMantissa Format.binary64 b).toNat).log2 = 52 :=
      (Nat.log2_eq_iff (by omega)).2 ⟨by omega, by omega⟩
    have biased : ((@unpackExponent Format.binary64 b).toNat -
        ((Format.binary64.exponentBias : Int) + (Format.binary64.mantissaBitsWithoutImplicit : Int)) +
          (Format.binary64.exponentBias : Int) +
            (Format.binary64.mantissaBitsWithoutImplicit : Int)).toNat =
        (@unpackExponent Format.binary64 b).toNat := by
      omega
    simp only [UnpackedFloat.pack]
    rw [biased, significand, digits, if_neg (by omega),
      if_pos (show 52 + 1 = Format.binary64.mantissaBits from rfl), BitVec.ofNat_toNat, BitVec.setWidth_eq]
    refine packComponents_of_parts rfl (BitVec.eq_of_toNat_eq ?_)
    rw [BitVec.toNat_ofNat]
    change _ = _ % 2 ^ 52
    omega

/-! ### Doubles -/

/-- A double is that of its bits. -/
theorem ofBits_toBits (x : Float) : Float.ofBits x.toBits = x := by
  obtain ⟨⟨bits, valid⟩⟩ := x
  have same := pack_unpack valid
  simp only [Float.ofBits, Float.toBits, Float.Model.ofBits, Float.Model.pack, same]

/-- Doubles that stand for the same are the same. -/
theorem eq_of_unpack_eq {x y : Float} (same : x.toModel.unpack = y.toModel.unpack) : x = y := by
  rw [← ofBits_toBits x, ← ofBits_toBits y]
  exact congrArg (fun f => (⟨Float.Model.pack f⟩ : Float)) same

/-- A double that compares equal to one is one. -/
theorem eq_one_of_bne {x : Float} (same : (x != 1) = false) : x = 1 := by
  have one : (1 : Float).toModel.unpack = .finite .positive (2 ^ 52) (-52) (by decide) := rfl
  have equal : x.toModel.unpack.compare (1 : Float).toModel.unpack = some .eq := by
    have holds : (x == 1) = true := by simpa [bne] using same
    exact eq_of_beq holds
  apply eq_of_unpack_eq
  rw [one] at equal ⊢
  cases unpacked : x.toModel.unpack with
  | infinity sign => rw [unpacked] at equal; cases sign <;> cases equal
  | notANumber => rw [unpacked] at equal; cases equal
  | zero sign => rw [unpacked] at equal; cases sign <;> cases equal
  | finite sign mantissa exponent positive =>
    rw [unpacked] at equal
    cases sign with
    | negative => cases equal
    | positive =>
      have orders : (compare exponent (-52)).then (compare mantissa (2 ^ 52)) = .eq :=
        Option.some.inj equal
      obtain ⟨exponents, mantissas⟩ := Ordering.then_eq_eq.1 orders
      obtain rfl := Std.LawfulEqCmp.eq_of_compare exponents
      obtain rfl := Std.LawfulEqCmp.eq_of_compare mantissas
      rfl

/-- The fields of a word add up to it. -/
private theorem fields_of_lt {n : Nat} (bound : n < 2 ^ 64) :
    n = (if n / 2 ^ 63 == 1 then 2 ^ 63 else 0) + (n / 2 ^ 52 % 2 ^ 11 * 2 ^ 52 + n % 2 ^ 52) := by
  have whole : n = n / 2 ^ 52 * 2 ^ 52 + n % 2 ^ 52 := by omega
  have sign : n / 2 ^ 63 = n / 2 ^ 52 / 2 ^ 11 := (Nat.div_div_eq_div_mul n (2 ^ 52) (2 ^ 11)).symm
  have high : n / 2 ^ 52 < 2 ^ 12 := by omega
  rw [sign]
  by_cases set : n / 2 ^ 52 / 2 ^ 11 = 1
  · rw [if_pos (by simpa using set)]
    omega
  · rw [if_neg (by simpa using set)]
    omega

/-- The bits of a finite double: its sign, and a number that counts the doubles up to it. -/
theorem Double.toBits_of_finite {x : Float} {negative : Bool} {significand : Nat} {exponent : Int}
    (isFinite : ofFloat x = .finite negative significand exponent) :
    x.toBits.toNat = (if negative then 2 ^ 63 else 0) + ((exponent + 1074).toNat * 2 ^ 52 + significand) ∧
      (exponent + 1074).toNat * 2 ^ 52 + significand < 2047 * 2 ^ 52 ∧ -1074 ≤ exponent ∧
      significand < 2 ^ 53 ∧ (significand < 2 ^ 52 → exponent = -1074) := by
  have fields := fields_of_lt x.toBits.toNat_lt
  have biased : x.toBits.toNat / 2 ^ 52 % 2 ^ 11 < 2 ^ 11 := Nat.mod_lt _ (by decide)
  have fraction : x.toBits.toNat % 2 ^ 52 < 2 ^ 52 := Nat.mod_lt _ (by decide)
  unfold ofFloat at isFinite
  simp only [beq_iff_eq] at isFinite
  split at isFinite
  · split at isFinite <;> cases isFinite
  split at isFinite
  · rename_i low
    cases isFinite
    rw [low] at fields
    refine ⟨fields.trans (by omega), ?_⟩
    omega
  · cases isFinite
    generalize x.toBits.toNat / 2 ^ 52 % 2 ^ 11 = high at *
    refine ⟨fields.trans (by omega), ?_⟩
    omega

/-- The bits of an infinite double. -/
theorem Double.toBits_of_infinite {x : Float} {negative : Bool}
    (isInfinite : ofFloat x = .infinite negative) :
    x.toBits.toNat = (if negative then 2 ^ 63 else 0) + 2047 * 2 ^ 52 := by
  have fields := fields_of_lt x.toBits.toNat_lt
  unfold ofFloat at isInfinite
  simp only [beq_iff_eq] at isInfinite
  split at isInfinite
  · rename_i all
    split at isInfinite
    · rename_i none
      cases isInfinite
      rwa [all, none] at fields
    · cases isInfinite
  · split at isInfinite <;> cases isInfinite

/-- There is one double that is no number. -/
theorem Double.eq_of_nan {x : Float} (isNan : ofFloat x = .nan) : x = 0 / 0 := by
  obtain ⟨⟨bits, valid⟩⟩ := x
  unfold ofFloat at isNan
  simp only [beq_iff_eq] at isNan
  split at isNan
  · rename_i special
    split at isNan
    · cases isNan
    rename_i some
    obtain ⟨-, isExponent, isMantissa⟩ := toNat_unpack bits.toBitVec
    have word := valid.eq_packedNaN (BitVec.eq_of_toNat_eq (isExponent.trans special))
      fun none => some (by
        have zero := congrArg BitVec.toNat none
        rw [isMantissa] at zero
        exact zero)
    have same : bits = UInt64.ofBitVec (packedNaN Format.binary64) := by rw [← word]
    subst same
    rfl
  · split at isNan <;> cases isNan

end ProofWalk.Decimal
