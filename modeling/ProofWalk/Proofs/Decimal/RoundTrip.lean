import Mathlib.Data.List.TakeWhile
import ProofWalk.Decimal.Layout
import ProofWalk.Decimal.Reader
import ProofWalk.Proofs.Decimal.Bits
import ProofWalk.Proofs.Decimal.Shortest
import ProofWalk.Proofs.Text.Legible

/-!
# Written doubles read back

The positional text of a double reads back as the double: its digits stand for a number that rounds to it,
and reading rounds to the nearest double.

## Main results

* `readUnsigned?_positional` — what is read of digits with a point
* `readChars?_plainChars` — a double reads back from its text
* `mem_plainChars` — the characters of the text
* `isWord_plain` — a double is written without blanks
-/

namespace ProofWalk.Decimal

/-! ### Digits -/

theorem digitValue?_of_isDigit {c : Char} (digit : c.isDigit = true) :
    Text.digitValue? c = some (c.toNat - '0'.toNat) := by
  have bounds : '0' ≤ c ∧ c ≤ '9' := by
    simp only [Char.isDigit, Bool.and_eq_true, decide_eq_true_eq] at digit
    exact digit
  rw [Text.digitValue?, if_pos bounds]

theorem isDigit_of_isDigit {c : Char} (digit : c.isDigit = true) : isDigit c = true := by
  rw [isDigit, digitValue?_of_isDigit digit]
  rfl

theorem readDigitsFrom?_eq {digits : List Char} (all : ∀ c ∈ digits, c.isDigit = true) (value : Nat) :
    Text.readDigitsFrom? value digits = some (Nat.ofDigitChars 10 digits value) := by
  induction digits generalizing value with
  | nil => rfl
  | cons c rest ih =>
    rw [Text.readDigitsFrom?, digitValue?_of_isDigit (all c (List.mem_cons_self ..)), Option.bind_some,
      ih fun d member => all d (List.mem_cons_of_mem _ member), Nat.ofDigitChars_cons]

theorem readDigits?_eq {digits : List Char} (all : ∀ c ∈ digits, c.isDigit = true) (nonempty : digits ≠ []) :
    Text.readDigits? digits = some (Nat.ofDigitChars 10 digits 0) := by
  cases digits with
  | nil => exact absurd rfl nonempty
  | cons c rest => exact readDigitsFrom?_eq all 0

/-- Digits, and perhaps a point with more digits behind it. -/
theorem readUnsigned?_digits {whole : List Char} (all : ∀ c ∈ whole, c.isDigit = true)
    (nonempty : whole ≠ []) :
    readUnsigned? whole = some (Nat.ofDigitChars 10 whole 0, 0) := by
  have isWhole : whole.takeWhile isDigit = whole ∧ whole.dropWhile isDigit = [] := by
    constructor
    · rw [List.takeWhile_eq_self_iff]
      exact fun c member => isDigit_of_isDigit (all c member)
    · rw [List.dropWhile_eq_nil_iff]
      exact fun c member => isDigit_of_isDigit (all c member)
  unfold readUnsigned?
  simp only [isWhole.1, isWhole.2, List.append_nil, readDigits?_eq all nonempty]
  rfl

theorem readUnsigned?_point {whole places : List Char} (all : ∀ c ∈ whole ++ places, c.isDigit = true)
    (nonempty : whole ++ places ≠ []) : readUnsigned? (whole ++ '.' :: places) =
      some (Nat.ofDigitChars 10 (whole ++ places) 0, -(places.length : Int)) := by
  have noDigit : isDigit '.' = false := by decide
  have first : (whole ++ '.' :: places).takeWhile isDigit = whole ∧
      (whole ++ '.' :: places).dropWhile isDigit = '.' :: places := by
    have digits : ∀ c ∈ whole, isDigit c = true := fun c member =>
      isDigit_of_isDigit (all c (List.mem_append_left _ member))
    constructor
    · rw [List.takeWhile_append_of_pos digits, List.takeWhile_cons_of_neg (by rw [noDigit]; decide),
        List.append_nil]
    · rw [List.dropWhile_append_of_pos digits, List.dropWhile_cons_of_neg (by rw [noDigit]; decide)]
  have second : places.takeWhile isDigit = places ∧ places.dropWhile isDigit = [] := by
    have digits : ∀ c ∈ places, isDigit c = true := fun c member =>
      isDigit_of_isDigit (all c (List.mem_append_right _ member))
    exact ⟨List.takeWhile_eq_self_iff.2 digits, List.dropWhile_eq_nil_iff.2 digits⟩
  unfold readUnsigned?
  simp only [first.1, first.2, second.1, second.2, readDigits?_eq all nonempty]

/-- Digits with their point read as the number that they stand for. -/
theorem readUnsigned?_positional {d : Digits} (all : ∀ c ∈ d.digits, c.isDigit = true)
    (nonempty : d.digits ≠ []) : ∃ (value : Nat) (power : Int),
      readUnsigned? (positional d) = some (value, power) ∧ (value : ℚ) * 10 ^ power = d.value := by
  have zeros (n : Nat) : ∀ c ∈ List.replicate n '0', c.isDigit = true := by
    intro c member
    rw [List.eq_of_mem_replicate member]
    rfl
  unfold positional Digits.value
  split
  · rename_i low
    refine ⟨_, _, @readUnsigned?_point ['0']
      (List.replicate (-d.point).toNat '0' ++ d.digits) (fun c member => ?_) (by simp), ?_⟩
    · simp only [List.mem_append, List.mem_singleton] at member
      rcases member with rfl | zero | digit
      · rfl
      · exact zeros _ c zero
      · exact all c digit
    · have value : Nat.ofDigitChars 10 (['0'] ++ (List.replicate (-d.point).toNat '0' ++ d.digits)) 0 =
          Nat.ofDigitChars 10 d.digits 0 := by
        rw [Nat.ofDigitChars_append, Nat.ofDigitChars_append, Nat.ofDigitChars_replicate_zero]
        rfl
      rw [value, List.length_append, List.length_replicate]
      congr 2
      omega
  · rename_i high
    simp only
    split
    · rename_i short
      refine ⟨_, _, readUnsigned?_digits (fun c member => ?_) (by simp [nonempty]), ?_⟩
      · rcases List.mem_append.1 member with digit | zero
        · exact all c digit
        · exact zeros _ c zero
      · rw [Nat.ofDigitChars_append, Nat.ofDigitChars_replicate_zero, zpow_zero, mul_one]
        have shift : d.point - d.digits.length = ((d.point.toNat - d.digits.length : Nat) : Int) := by omega
        rw [shift, zpow_natCast]
        push_cast
        ring
    · rename_i long
      refine ⟨_, _, readUnsigned?_point (fun c member => ?_) ?_, ?_⟩
      · rw [List.take_append_drop] at member
        exact all c member
      · rw [List.take_append_drop]
        exact nonempty
      · rw [List.take_append_drop, List.length_drop]
        congr 2
        omega

/-! ### Numbers -/

/-- The powers of two of the doubles lie below `10 ^ 400`. -/
theorem two_zpow_lt : (2 : ℚ) ^ (1075 : Int) < 10 ^ (400 : Int) := by
  have isLess : 2 ^ 1075 < 10 ^ 400 := by decide +kernel
  have cast := (Nat.cast_lt (α := ℚ)).2 isLess
  rw [Nat.cast_pow, Nat.cast_pow] at cast
  exact_mod_cast cast

/-- A number that rounds to a finite double is read as its bits. -/
theorem ofDecimal_eq {negative : Bool} {value significand : Nat} {power exponent : Int}
    (positive : 0 < significand) (least : -1074 ≤ exponent) (bound : significand < 2 ^ 53)
    (small : significand < 2 ^ 52 → exponent = -1074)
    (finite : (exponent + 1074).toNat * 2 ^ 52 + significand < 2047 * 2 ^ 52)
    (within : Within significand exponent ((value : ℚ) * 10 ^ power)) :
    ofDecimal negative value power = Float.ofBits (UInt64.ofNat
      ((if negative then 2 ^ 63 else 0) + ((exponent + 1074).toNat * 2 ^ 52 + significand))) := by
  have unit := two_zpow_pos exponent
  have one_le : (1 : ℚ) ≤ significand := by exact_mod_cast positive
  have most : (significand : ℚ) + 1 / 2 ≤ 2 ^ 53 := by
    have cast : ((significand + 1 : Nat) : ℚ) ≤ ((2 ^ 53 : Nat) : ℚ) := by exact_mod_cast bound
    push_cast at cast
    linarith
  have gap : gapBelow significand exponent ≤ 1 / 2 := by
    unfold gapBelow
    split <;> norm_num
  -- the number lies far inside the range
  have low : (10 : ℚ) ^ (-400 : Int) < value * 10 ^ power := by
    refine lt_of_lt_of_le ?_ within.low
    have smallest : (2 : ℚ) ^ (-1074 : Int) ≤ 2 ^ exponent := zpow_le_zpow_right₀ (by norm_num) least
    have half : (1 / 2 : ℚ) ≤ significand - gapBelow significand exponent := by linarith
    calc (10 : ℚ) ^ (-400 : Int) < 2 ^ (-1075 : Int) := by
          rw [zpow_neg, zpow_neg]
          exact inv_strictAnti₀ (two_zpow_pos _) two_zpow_lt
      _ = 1 / 2 * 2 ^ (-1074 : Int) := by
          rw [show (-1075 : Int) = -1 + -1074 by norm_num, zpow_add₀ (by norm_num)]
          norm_num only
      _ ≤ 1 / 2 * 2 ^ exponent := by linarith
      _ ≤ _ := mul_le_mul_of_nonneg_right half unit.le
  have high : (value : ℚ) * 10 ^ power < 10 ^ (400 : Int) := by
    refine lt_of_le_of_lt within.high ?_
    have largest : (2 : ℚ) ^ exponent ≤ 2 ^ (973 : Int) := zpow_le_zpow_right₀ (by norm_num) (by omega)
    calc ((significand : ℚ) + 1 / 2) * 2 ^ exponent ≤ 2 ^ 53 * 2 ^ exponent :=
          mul_le_mul_of_nonneg_right most unit.le
      _ ≤ 2 ^ 53 * 2 ^ (973 : Int) := by linarith
      _ = 2 ^ (1026 : Int) := by
          rw [show (1026 : Int) = 53 + 973 by norm_num, zpow_add₀ (by norm_num)]
          rfl
      _ ≤ 2 ^ (1075 : Int) := zpow_le_zpow_right₀ (by norm_num) (by norm_num)
      _ < _ := two_zpow_lt
  have value_pos : 0 < value := by
    rw [Nat.pos_iff_ne_zero]
    rintro rfl
    rw [Nat.cast_zero, zero_mul] at low
    exact absurd low (not_lt.2 (by positivity))
  -- where its first digit stands
  have digits_pos : 0 < (Nat.toDigits 10 value).length := Nat.length_toDigits_pos
  have below : value < 10 ^ (Nat.toDigits 10 value).length :=
    (Nat.length_toDigits_le_iff (by decide) digits_pos).1 le_rfl
  have reaches : 10 ^ ((Nat.toDigits 10 value).length - 1) ≤ value := by
    by_cases one : (Nat.toDigits 10 value).length = 1
    · rw [one]
      exact value_pos
    · by_contra less
      have short := (Nat.length_toDigits_le_iff (b := 10) (n := value)
        (k := (Nat.toDigits 10 value).length - 1) (by decide) (by omega)).2 (by omega)
      omega
  have ten : (1 : ℚ) < 10 := by norm_num
  have notHigh : ¬400 < ((Nat.toDigits 10 value).length : Int) + power := by
    intro far
    have : (10 : ℚ) ^ (400 : Int) ≤ value * 10 ^ power := by
      calc (10 : ℚ) ^ (400 : Int)
          ≤ 10 ^ ((((Nat.toDigits 10 value).length - 1 : Nat) : Int) + power) :=
            zpow_le_zpow_right₀ ten.le (by omega)
        _ = (10 ^ ((Nat.toDigits 10 value).length - 1) : Nat) * 10 ^ power := by
          rw [zpow_add₀ (by norm_num), zpow_natCast]
          push_cast
          rfl
        _ ≤ _ := mul_le_mul_of_nonneg_right (by exact_mod_cast reaches) (by positivity)
    exact absurd high (not_lt.2 this)
  have notLow : ¬((Nat.toDigits 10 value).length : Int) + power < -400 := by
    intro far
    have : (value : ℚ) * 10 ^ power ≤ 10 ^ (-400 : Int) := by
      calc (value : ℚ) * 10 ^ power ≤ (10 ^ (Nat.toDigits 10 value).length : Nat) * 10 ^ power :=
            mul_le_mul_of_nonneg_right (by exact_mod_cast below.le) (by positivity)
        _ = 10 ^ (((Nat.toDigits 10 value).length : Int) + power) := by
          rw [zpow_add₀ (by norm_num), zpow_natCast]
          push_cast
          rfl
        _ ≤ _ := zpow_le_zpow_right₀ ten.le far.le
    exact absurd low (not_lt.2 this)
  have bits {num den : Nat} (num_pos : 0 < num) (den_pos : 0 < den)
      (ratio : (num : ℚ) / den = value * 10 ^ power) : nearest negative num den = Float.ofBits (UInt64.ofNat
        ((if negative then 2 ^ 63 else 0) + ((exponent + 1074).toNat * 2 ^ 52 + significand))) := by
    rw [← ratio] at within
    have isBits := nearestBits_eq den_pos positive least bound small finite within
    have nonzero : (num == 0) = false := by simpa using num_pos.ne'
    unfold nearest
    simp only [nonzero, isBits]
    cases negative
    · simp only [Bool.false_eq_true, if_false, Nat.zero_add]
    · rfl
  have nonzero : (value == 0) = false := by simpa using value_pos.ne'
  have scaled := ten_zpow_eq power
  unfold ofDecimal
  simp only [nonzero, if_neg notHigh, if_neg notLow, Bool.false_eq_true, if_false]
  split
  · rename_i nonneg
    rw [if_pos nonneg] at scaled
    refine bits (by positivity) Nat.one_pos ?_
    rw [scaled]
    push_cast
    rw [div_one]
  · rename_i isNegative
    rw [if_neg isNegative] at scaled
    refine bits value_pos (by positivity) ?_
    rw [scaled, mul_one_div]

/-! ### Texts -/

/-- A text that begins with a digit is read as a number without a sign. -/
theorem readMagnitude?_of_digit (negative : Bool) {c : Char} (digit : c.isDigit = true) (rest : List Char) :
    readMagnitude? negative (c :: rest) =
      (readUnsigned? (c :: rest)).map fun (value, power) => ofDecimal negative value power := by
  have bounds : 48 ≤ c.toNat ∧ c.toNat ≤ 57 := by
    simp only [Char.isDigit, Bool.and_eq_true, decide_eq_true_eq] at digit
    exact digit
  have lower : c.toLower = c := by
    unfold Char.toLower
    rw [dif_neg]
    intro upper
    have : 65 ≤ c.toNat := upper.1
    omega
  have other (d : Char) (noDigit : 57 < d.toNat) (tail : List Char) :
      (c :: rest).map Char.toLower ≠ d :: tail := by
    intro same
    rw [List.map_cons, lower] at same
    have isSame := (List.cons.inj same).1
    rw [isSame] at bounds
    omega
  unfold readMagnitude?
  simp only
  rw [if_neg, if_neg]
  · exact other 'n' (by decide) ['a', 'n']
  · rintro (inf | infinity)
    · exact other 'i' (by decide) ['n', 'f'] inf
    · exact other 'i' (by decide) ['n', 'f', 'i', 'n', 'i', 't', 'y'] infinity

/-- A sign is read in front of a text that begins with a digit. -/
theorem readChars?_signText (negative : Bool) {c : Char} (digit : c.isDigit = true) (rest : List Char) :
    readChars? (signText negative ++ c :: rest) = readMagnitude? negative (c :: rest) := by
  cases negative with
  | true => rfl
  | false =>
    have minus : c ≠ '-' := by
      rintro rfl
      cases digit
    have plus : c ≠ '+' := by
      rintro rfl
      cases digit
    change readChars? (c :: rest) = _
    unfold readChars?
    split
    · rename_i same
      exact absurd (List.cons.inj same).1 minus
    · rename_i same
      exact absurd (List.cons.inj same).1 plus
    · rfl

/-- The text of digits begins with a digit. -/
theorem positional_eq_cons {d : Digits} (all : ∀ c ∈ d.digits, c.isDigit = true) (nonempty : d.digits ≠ []) :
    ∃ c rest, positional d = c :: rest ∧ c.isDigit = true := by
  obtain ⟨c, rest, isCons⟩ := List.exists_cons_of_ne_nil nonempty
  have digit : c.isDigit = true := all c (by rw [isCons]; simp)
  unfold positional
  split
  · exact ⟨'0', _, rfl, rfl⟩
  · rename_i high
    simp only
    split
    · exact ⟨c, _, by rw [isCons]; rfl, digit⟩
    · have some' : 0 < d.point.toNat := by omega
      obtain ⟨n, isSucc⟩ := Nat.exists_eq_succ_of_ne_zero some'.ne'
      exact ⟨c, _, by rw [isCons, isSucc]; rfl, digit⟩

theorem mem_of_mem_dropTrailingZeros {digits : List Char} {c : Char}
    (member : c ∈ dropTrailingZeros digits) : c ∈ digits := by
  obtain ⟨zeros, whole⟩ := exists_dropTrailingZeros digits
  rw [whole]
  exact List.mem_append_left _ member

/-- The digits of a double are digits, and there is one. -/
theorem shortest_digits (tie : Tie) {significand : Nat} (exponent : Int) (positive : 0 < significand)
    (bound : significand < 2 ^ 53) : (∀ c ∈ (shortest tie significand exponent).digits, c.isDigit = true) ∧
      (shortest tie significand exponent).digits ≠ [] := by
  have digits (units : Nat) (point : Int) (count : Nat) :
      ∀ c ∈ (digitsOfUnits units point count).digits, c.isDigit = true := fun c member =>
    Nat.isDigit_of_mem_toDigits (by decide) (by decide) member
  have found (low num high den : Nat) (closed : Bool) (point : Int) (count fuel : Nat) :
      ∀ c ∈ (shortestFrom tie low num high den closed point count fuel).digits, c.isDigit = true := by
    induction fuel generalizing count with
    | zero => exact digits _ _ _
    | succ fuel ih =>
      rw [shortestFrom]
      cases closed <;>
      · simp only [Bool.false_eq_true, if_true, if_false]
        split_ifs
        · exact digits _ _ _
        · exact digits _ _ _
        · exact digits _ _ _
        · exact digits _ _ _
        · exact ih (count + 1)
  constructor
  · intro c member
    unfold shortest at member
    simp only at member
    exact found _ _ _ _ _ _ _ _ c (mem_of_mem_dropTrailingZeros member)
  · -- the number is positive, so it has a digit
    intro none
    have low := (@shortest_within tie significand exponent positive bound).low
    rw [Digits.value, none] at low
    have one_le : (1 : ℚ) ≤ significand := by exact_mod_cast positive
    have gap : gapBelow significand exponent ≤ 1 / 2 := by
      unfold gapBelow
      split <;> norm_num
    have : 0 < ((significand : ℚ) - gapBelow significand exponent) * 2 ^ exponent :=
      mul_pos (by linarith) (two_zpow_pos exponent)
    simp only [Nat.ofDigitChars_nil, Nat.cast_zero, zero_mul] at low
    linarith

/-- A double reads back from its positional text. -/
theorem readChars?_plainChars (x : Float) : readChars? (plainChars x) = some x := by
  unfold plainChars
  cases isValue : Double.ofFloat x with
  | nan =>
    rw [Double.eq_of_nan isValue]
    rfl
  | infinite negative =>
    have bits := Double.toBits_of_infinite isValue
    have isInfinite : nearestBits (2 ^ 1024) 1 = 2047 * 2 ^ 52 := by decide +kernel
    have nonzero (n : Nat) : (2 ^ n == 0) = false := beq_false_of_ne (Nat.two_pow_pos n).ne'
    have reads : readChars? (signText negative ++ "inf".toList) = some (nearest negative (2 ^ 1024) 1) := by
      cases negative <;> rfl
    simp only [reads]
    unfold nearest
    simp only [nonzero, isInfinite]
    rw [← ofBits_toBits x, ← UInt64.ofNat_toNat (x := x.toBits), bits]
    cases negative <;> rfl
  | finite negative significand exponent =>
    obtain ⟨bits, finite, least, bound, small⟩ := Double.toBits_of_finite isValue
    have isDouble : Float.ofBits (UInt64.ofNat
        ((if negative then 2 ^ 63 else 0) + ((exponent + 1074).toNat * 2 ^ 52 + significand))) = x := by
      rw [← bits, UInt64.ofNat_toNat, ofBits_toBits]
    simp only [beq_iff_eq]
    split
    · rename_i zero
      rw [zero, small (by rw [zero]; decide)] at isDouble
      rw [← isDouble, readChars?_signText negative rfl, readMagnitude?_of_digit negative rfl]
      cases negative <;> rfl
    · rename_i nonzero
      have positive := Nat.pos_of_ne_zero nonzero
      obtain ⟨all, nonempty⟩ := shortest_digits .up exponent positive bound
      obtain ⟨c, rest, isCons, digit⟩ := positional_eq_cons all nonempty
      obtain ⟨value, power, reads, isNumber⟩ := readUnsigned?_positional all nonempty
      have within := @shortest_within .up significand exponent positive bound
      rw [← isNumber] at within
      rw [isCons, readChars?_signText negative digit, readMagnitude?_of_digit negative digit, ← isCons, reads,
        Option.map_some]
      change some (ofDecimal negative value power) = some x
      rw [ofDecimal_eq positive least bound small finite within, isDouble]

/-- The characters of the positional text of a double. -/
theorem mem_plainChars {x : Float} {c : Char} (member : c ∈ plainChars x) :
    c.isDigit = true ∨ c ∈ ['-', '.', 'i', 'n', 'f', 'N', 'a'] := by
  have sign {negative : Bool} (member : c ∈ signText negative) :
      c ∈ ['-', '.', 'i', 'n', 'f', 'N', 'a'] := by
    cases negative with
    | true =>
      rw [List.mem_singleton.1 member]
      decide
    | false => cases member
  unfold plainChars at member
  cases isValue : Double.ofFloat x with
  | nan =>
    rw [isValue] at member
    have words : "NaN".toList ⊆ ['-', '.', 'i', 'n', 'f', 'N', 'a'] := by decide
    exact .inr (words member)
  | infinite negative =>
    rw [isValue] at member
    have words : "inf".toList ⊆ ['-', '.', 'i', 'n', 'f', 'N', 'a'] := by decide
    exact .inr ((List.mem_append.1 member).elim sign (words ·))
  | finite negative significand exponent =>
    obtain ⟨-, -, -, bound, -⟩ := Double.toBits_of_finite isValue
    rw [isValue] at member
    simp only [beq_iff_eq] at member
    rcases List.mem_append.1 member with isSign | member
    · exact .inr (sign isSign)
    split at member
    · rw [List.mem_singleton.1 member]
      exact .inl rfl
    · rename_i nonzero
      obtain ⟨all, -⟩ := shortest_digits .up exponent (Nat.pos_of_ne_zero nonzero) bound
      have zero {n : Nat} (member : c ∈ List.replicate n '0') : c.isDigit = true := by
        rw [List.eq_of_mem_replicate member]
        rfl
      unfold positional at member
      split at member
      · rcases List.mem_cons.1 member with rfl | member
        · exact .inl rfl
        rcases List.mem_cons.1 member with rfl | member
        · exact .inr (by decide)
        · exact .inl ((List.mem_append.1 member).elim zero (all c))
      · simp only at member
        split at member
        · exact .inl ((List.mem_append.1 member).elim (all c) zero)
        · rcases List.mem_append.1 member with before | behind
          · exact .inl (all c (List.mem_of_mem_take before))
          · rcases List.mem_cons.1 behind with rfl | behind
            · exact .inr (by decide)
            · exact .inl (all c (List.mem_of_mem_drop behind))

@[simp] theorem toList_plain (x : Float) : (plain x).toList = plainChars x := String.toList_ofList

theorem isWord_plain (x : Float) : Text.IsWord (plain x) := by
  constructor
  · rw [toList_plain]
    intro none
    have read := readChars?_plainChars x
    rw [none] at read
    cases read
  · intro c member
    rw [toList_plain] at member
    rcases mem_plainChars member with digit | mark
    · exact Text.isBlank_of_isDigit digit
    · have ink : ∀ c ∈ ['-', '.', 'i', 'n', 'f', 'N', 'a'], Text.isBlank c = false := by
        simp [Text.isBlank]
      exact ink c mark

end ProofWalk.Decimal
