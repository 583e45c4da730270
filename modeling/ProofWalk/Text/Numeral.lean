/-!
# Numerals

Reading whole numbers in base ten. The characters are the ten ASCII digits; a sign may come first,
a minus sign only where negative numbers are admitted, and a number outside its range is refused.

## Main definitions

* `digitValue?` — the value of a digit
* `readDigits?` — the number a run of digits stands for
* `readCount?` — a number that fits in an unsigned word
* `readInteger?` — a number that fits in a signed word
-/

namespace ProofWalk.Text

-- powers of numbers are those of the core library
attribute [local instance (2000)] instPowNat

/-- The value of a decimal digit. -/
def digitValue? (c : Char) : Option Nat :=
  if '0' ≤ c ∧ c ≤ '9' then some (c.toNat - '0'.toNat) else none

/-- The number a run of digits stands for when `value` stands to its left. -/
def readDigitsFrom? (value : Nat) : List Char → Option Nat
  | [] => some value
  | c :: r => (digitValue? c).bind fun d => readDigitsFrom? (10 * value + d) r

/-- The number a run of digits stands for; an empty run is none. -/
def readDigits? : List Char → Option Nat
  | [] => none
  | c :: r => readDigitsFrom? 0 (c :: r)

/-- Words are 64 bits wide. -/
def wordLimit : Nat := 2 ^ (64 : Nat)

/-- A number below `limit`, with an optional plus sign. -/
def readBelow? (limit : Nat) (s : List Char) : Option Nat :=
  let digits := match s with
    | '+' :: r => r
    | _ => s
  (readDigits? digits).filter (· < limit)

/-- A number that fits in an unsigned word. -/
def readCount? (s : List Char) : Option Nat := readBelow? wordLimit s

/-- A number that fits in a signed word, with an optional sign. -/
def readInteger? (s : List Char) : Option Int :=
  match s with
  | '-' :: r => ((readDigits? r).filter (· ≤ wordLimit / 2)).map fun n => -(n : Int)
  | _ => (readBelow? (wordLimit / 2) s).map fun n => (n : Int)

end ProofWalk.Text
