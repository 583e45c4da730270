import ProofWalk.Decimal.Double

/-!
# Written forms of a double

A positive number is written with `n` digits as `digits * 10 ^ (point - n)`, where the digits have
no leading zero: with the fewest digits that read back as the same double, or with a given number of
digits nearest to the exact value.

The program writes a weight with the fewest digits that read back and never with an exponent. Its
descriptions of a component write large and small magnitudes with an exponent and keep a point in
whole numbers. Both take the upper of two equally near decimals, where a report takes the even one.
The closing line of a training uses a fixed number of places.

## Main definitions

* `Digits` — decimal digits with the place of the point
* `Tie`, `Tie.round` — which of two equally near whole numbers a quotient is rounded to
* `decimalPoint` — where the first digit of a number stands
* `shortest` — the fewest digits that read back
* `significant` — a given number of digits, a half to the even one
* `plain` — positional, no exponent: `0.0000001`, `2`, `-0`, `inf`, `NaN`
* `descriptive`, `reported` — with a point or an exponent: `2.0`, `1e-7`
* `fixedPlaces` — a given number of places after the point
* `scientific`, `scientificWithin` — one digit, a point, the other digits and an exponent
-/

namespace ProofWalk.Decimal

-- powers of numbers are those of the core library
attribute [local instance (2000)] instPowNat

/-! ### Digits -/

/-- The number `0.d₁d₂… * 10 ^ point`. -/
structure Digits where
  digits : List Char
  point : Int
deriving Repr, DecidableEq

/-- The digits of a natural number, most significant first. -/
def natDigits (n : Nat) : List Char := Nat.toDigits 10 n

/-- Which of two whole numbers equally near to a quotient stands for it. -/
inductive Tie where
  | even
  | up
deriving Repr, DecidableEq

/-- A quotient rounded to the nearest whole number, a half as the tie rule says. -/
def Tie.round : Tie → Nat → Nat → Nat
  | even, num, den => roundDiv num den
  | up, num, den => (2 * num + den) / (2 * den)

/-- The `p` with `10 ^ (p - 1) ≤ num / den < 10 ^ p`, for a positive ratio. -/
def decimalPoint (num den : Nat) : Int :=
  if den ≤ num then ((natDigits (num / den)).length : Int)
  else
    let length := (natDigits (den / num)).length
    if den ≤ num * 10 ^ (length - 1) then 2 - (length : Int) else 1 - (length : Int)

/-- The ratio of a positive number to the unit of its last place when it has `count` digits. -/
def gridRatio (num den : Nat) (point : Int) (count : Nat) : Nat × Nat :=
  let places := (count : Int) - point
  if 0 ≤ places then (num * 10 ^ places.toNat, den) else (num, den * 10 ^ (-places).toNat)

/-- The digits of a whole number of last-place units, where a carry may have added a digit. -/
def digitsOfUnits (units : Nat) (point : Int) (count : Nat) : Digits :=
  let text := natDigits units
  { digits := text, point := point + ((text.length : Int) - (count : Int)) }

/-- The fewest digits, from `count` on, of a decimal that lies between the two bounds; of two
decimals of that length the one nearer to the number, or that of the tie rule. The three ratios
share a denominator, and the bounds belong to the interval when `closed`. -/
def shortestFrom (tie : Tie) (low num high den : Nat) (closed : Bool) (point : Int)
    (count fuel : Nat) : Digits :=
  let (scaledNum, scaledDen) := gridRatio num den point count
  match fuel with
  | 0 => digitsOfUnits (tie.round scaledNum scaledDen) point count
  | fuel + 1 =>
    let (scaledLow, _) := gridRatio low den point count
    let (scaledHigh, _) := gridRatio high den point count
    let below := scaledNum / scaledDen
    let above := below + 1
    let lowFits :=
      if closed then scaledLow ≤ below * scaledDen else scaledLow < below * scaledDen
    let highFits :=
      if closed then above * scaledDen ≤ scaledHigh else above * scaledDen < scaledHigh
    let exact := below * scaledDen == scaledNum
    if exact then digitsOfUnits below point count
    else if lowFits && highFits then digitsOfUnits (tie.round scaledNum scaledDen) point count
    else if lowFits then digitsOfUnits below point count
    else if highFits then digitsOfUnits above point count
    else shortestFrom tie low num high den closed point (count + 1) fuel

/-- A digit string without its trailing zeros. -/
def dropTrailingZeros (d : List Char) : List Char := (d.reverse.dropWhile (· == '0')).reverse

/-- The fewest digits that read back as the double `significand * 2 ^ exponent`, a positive one.
The numbers that read back lie between the midpoints to the neighbouring doubles; the lower
neighbour of a power of two is half as far, and a midpoint reads back when the significand is
even. The tie rule decides between two decimals of the fewest digits that are equally near, as for
`2 ^ -25`, which lies in the middle of `2.9802322387695312e-8` and `2.9802322387695313e-8`. -/
def shortest (tie : Tie) (significand : Nat) (exponent : Int) : Digits :=
  let (num, den) := dyadicRatio (4 * significand) (exponent - 2)
  let (unit, _) := dyadicRatio 1 (exponent - 2)
  let scale := if 0 ≤ exponent - 2 then unit else 1
  let halfPower := significand == 2 ^ (52 : Nat) && exponent != -1074
  let low := if halfPower then num - scale else num - 2 * scale
  let high := num + 2 * scale
  let found :=
    shortestFrom tie low num high den (significand % 2 == 0) (decimalPoint num den) 1 17
  { found with digits := dropTrailingZeros found.digits }

/-- The `count` digits nearest to a positive ratio, a half to the even one. -/
def significant (count num den : Nat) : Digits :=
  let point := decimalPoint num den
  let (scaledNum, scaledDen) := gridRatio num den point count
  let units := roundDiv scaledNum scaledDen
  let found := digitsOfUnits units point count
  { found with digits := found.digits.take count }

/-! ### Written forms -/

/-- The sign in front of a written number. -/
def signText (negative : Bool) : List Char := if negative then ['-'] else []

/-- The text of an integer. -/
def intText (n : Int) : List Char :=
  match n with
  | .ofNat m => natDigits m
  | .negSucc m => '-' :: natDigits (m + 1)

/-- The positional form of digits: zeros fill the places up to the point. -/
def positional (d : Digits) : List Char :=
  if d.point ≤ 0 then '0' :: '.' :: (List.replicate (-d.point).toNat '0' ++ d.digits)
  else
    let whole := d.point.toNat
    if d.digits.length ≤ whole then d.digits ++ List.replicate (whole - d.digits.length) '0'
    else d.digits.take whole ++ '.' :: d.digits.drop whole

/-- The form with an exponent: one digit before the point, no point when nothing follows. -/
def withExponent (d : Digits) : List Char :=
  let power := intText (d.point - 1)
  match d.digits with
  | [] => '0' :: 'e' :: power
  | [c] => c :: 'e' :: power
  | c :: r => c :: '.' :: (r ++ 'e' :: power)

/-- The positional text of a double with the fewest digits that read back. -/
def plainChars (x : Float) : List Char :=
  match Double.ofFloat x with
  | .nan => "NaN".toList
  | .infinite negative => signText negative ++ "inf".toList
  | .finite negative significand exponent =>
    signText negative ++
      if significand == 0 then ['0'] else positional (shortest .up significand exponent)

/-- The string form of `plainChars`. -/
def plain (x : Float) : String := String.ofList (plainChars x)

/-- The text of a double with a point or an exponent: whole numbers keep one place, and magnitudes
below `10 ^ (lowest - 1)` or from `10 ^ 16` on have an exponent. -/
def pointed (tie : Tie) (lowest : Int) (x : Float) : String :=
  String.ofList <|
    match Double.ofFloat x with
    | .nan => "NaN".toList
    | .infinite negative => signText negative ++ "inf".toList
    | .finite negative significand exponent =>
      signText negative ++
        if significand == 0 then "0.0".toList
        else
          let d := shortest tie significand exponent
          if d.point < lowest || 16 < d.point then withExponent d
          else
            let text := positional d
            if text.contains '.' then text else text ++ ['.', '0']

/-- The text of a double in the description of a component: an exponent below `10 ^ -4`, and the
upper of two equally near decimals. -/
def descriptive (x : Float) : String := pointed .up (-3) x

/-- The text of a double in a report: an exponent below `10 ^ -5`, and the even one of two equally
near decimals. -/
def reported (x : Float) : String := pointed .even (-4) x

/-- The text of a double with a given number of places after the point, a half to the even one. -/
def fixedPlaces (places : Nat) (x : Float) : String :=
  String.ofList <|
    match Double.ofFloat x with
    | .nan => "NaN".toList
    | .infinite negative => signText negative ++ "inf".toList
    | .finite negative significand exponent =>
      let (num, den) := dyadicRatio significand exponent
      let units := natDigits (roundDiv (num * 10 ^ places) den)
      let padded := List.replicate (places + 1 - units.length) '0' ++ units
      let whole := padded.take (padded.length - places)
      let rest := padded.drop (padded.length - places)
      signText negative ++ whole ++ (if places == 0 then [] else '.' :: rest)

/-- The text of a double with `count` significant digits and an exponent. -/
def scientific (count : Nat) (x : Float) : String :=
  String.ofList <|
    match Double.ofFloat x with
    | .nan => "NaN".toList
    | .infinite negative => signText negative ++ "inf".toList
    | .finite negative significand exponent =>
      signText negative ++
        if significand == 0 then
          withExponent { digits := List.replicate count '0', point := 1 }
        else
          let (num, den) := dyadicRatio significand exponent
          withExponent (significant count num den)

/-- The exponent of a finite nonzero double written with `count` significant digits. -/
def scientificExponent? (count : Nat) (x : Float) : Option Int :=
  match Double.ofFloat x with
  | .finite _ significand exponent =>
    if significand == 0 then none
    else
      let (num, den) := dyadicRatio significand exponent
      some ((significant count num den).point - 1)
  | _ => none

/-- The text of a double with `count` significant digits, but with none past `places` places after
the point. A number whose first digit lies past them is zero. -/
def scientificWithin (count places : Nat) (x : Float) : String :=
  match scientificExponent? count x with
  | none => scientific count x
  | some e =>
    if e < -(places : Int) then "0" else scientific (min (count : Int) (places + 1 + e)).toNat x

end ProofWalk.Decimal
