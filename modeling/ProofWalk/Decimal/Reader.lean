import ProofWalk.Decimal.Double
import ProofWalk.Text.Numeral

/-!
# Reading a decimal number

A number is an optional sign followed by digits with at most one point among them, at least one
digit, and an optional exponent; or, in any letter case, `inf`, `infinity` or `nan`. It is read as
the nearest double.

## Main definitions

* `readUnsigned?` — digits, point and exponent as a whole number and a power of ten
* `ofDecimal` — the double nearest to a whole number times a power of ten
* `read?` — the double that a text stands for
-/

namespace ProofWalk.Decimal

-- powers of numbers are those of the core library
attribute [local instance (2000)] instPowNat

/-- An ASCII decimal digit. -/
def isDigit (c : Char) : Bool := (Text.digitValue? c).isSome

/-- The power of ten after an exponent mark: an optional sign and at least one digit. -/
def readPower? (s : List Char) : Option Int :=
  match s with
  | '-' :: r => (Text.readDigits? r).map fun n => -(n : Int)
  | '+' :: r => (Text.readDigits? r).map fun n => (n : Int)
  | _ => (Text.readDigits? s).map fun n => (n : Int)

/-- Digits, point and exponent as a whole number and a power of ten. -/
def readUnsigned? (s : List Char) : Option (Nat × Int) :=
  let whole := s.takeWhile isDigit
  let rest := s.dropWhile isDigit
  let (places, rest) := match rest with
    | '.' :: r => (r.takeWhile isDigit, r.dropWhile isDigit)
    | _ => ([], rest)
  match Text.readDigits? (whole ++ places) with
  | none => none
  | some value =>
    match rest with
    | [] => some (value, -(places.length : Int))
    | c :: r =>
      if c = 'e' ∨ c = 'E' then
        (readPower? r).map fun power => (value, power - (places.length : Int))
      else none

/-- The double nearest to `value * 10 ^ power`. A power far outside the range of doubles is cut
short: the result is infinite or zero there in any case. -/
def ofDecimal (negative : Bool) (value : Nat) (power : Int) : Float :=
  if value == 0 then nearest negative 0 1
  else
    let point := ((Nat.toDigits 10 value).length : Int) + power
    if 400 < point then nearest negative (2 ^ (1024 : Nat)) 1
    else if point < -400 then nearest negative 0 1
    else if 0 ≤ power then nearest negative (value * 10 ^ power.toNat) 1
    else nearest negative value (10 ^ (-power).toNat)

/-- The double that a text without a sign stands for. -/
def readMagnitude? (negative : Bool) (s : List Char) : Option Float :=
  let lower := s.map Char.toLower
  if lower = "inf".toList ∨ lower = "infinity".toList then some (nearest negative (2 ^ (1024 : Nat)) 1)
  else if lower = "nan".toList then some (0 / 0)
  else (readUnsigned? s).map fun (value, power) => ofDecimal negative value power

/-- The double that a text stands for. -/
def readChars? (s : List Char) : Option Float :=
  match s with
  | '-' :: r => readMagnitude? true r
  | '+' :: r => readMagnitude? false r
  | _ => readMagnitude? false s

/-- The string form of `readChars?`. -/
def read? (s : String) : Option Float := readChars? s.toList

end ProofWalk.Decimal
