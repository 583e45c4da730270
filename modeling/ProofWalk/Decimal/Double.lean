/-!
# Doubles as exact numbers

A finite double is a sign, a whole significand and a power of two. This file reads these parts off
the bits and rounds a ratio of whole numbers to the nearest double.

## Main definitions

* `Double` — the exact value of a double
* `Double.ofFloat` — the value that the bits of a double stand for
* `roundDiv` — a quotient rounded to the nearest whole number, a half to the even one
* `nearest` — the double nearest to a ratio
-/

namespace ProofWalk.Decimal

-- powers of numbers are those of the core library
attribute [local instance (2000)] instPowNat

/-- The exact value of a double: not a number, an infinity, or a signed `significand * 2 ^ exponent`. -/
inductive Double where
  | nan
  | infinite (negative : Bool)
  | finite (negative : Bool) (significand : Nat) (exponent : Int)
deriving Repr, DecidableEq

/-- The value that the bits of a double stand for. -/
def Double.ofFloat (x : Float) : Double :=
  let bits := x.toBits.toNat
  let negative := bits / 2 ^ (63 : Nat) == 1
  let biased : Nat := bits / 2 ^ (52 : Nat) % 2 ^ (11 : Nat)
  let fraction : Nat := bits % 2 ^ (52 : Nat)
  if biased == 2047 then
    if fraction == 0 then .infinite negative else .nan
  else if biased == 0 then .finite negative fraction (-1074)
  else .finite negative (2 ^ (52 : Nat) + fraction) ((biased : Int) - 1075)

/-- Whether a double is negative by its sign, zero included. -/
def Double.isNegative : Double → Bool
  | .nan => false
  | .infinite negative => negative
  | .finite negative _ _ => negative

/-- A quotient rounded to the nearest whole number, a half to the even one. -/
def roundDiv (num den : Nat) : Nat :=
  let q := num / den
  let r := num % den
  if 2 * r < den then q
  else if den < 2 * r then q + 1
  else if q % 2 == 0 then q else q + 1

/-- A whole number times a power of two, as a ratio. -/
def dyadicRatio (significand : Nat) (exponent : Int) : Nat × Nat :=
  if 0 ≤ exponent then (significand * 2 ^ exponent.toNat, 1)
  else (significand, 2 ^ (-exponent).toNat)

/-- The largest `e` with `2 ^ e ≤ num / den`, for a positive ratio. -/
def binaryExponent (num den : Nat) : Int :=
  let guess : Int := (num.log2 : Int) - (den.log2 : Int)
  let reaches :=
    if 0 ≤ guess then den * 2 ^ guess.toNat ≤ num else den ≤ num * 2 ^ (-guess).toNat
  if reaches then guess else guess - 1

/-- The magnitude bits of the double nearest to a positive ratio, a half to the even one; a ratio
beyond the largest double gives the bits of infinity. -/
def nearestBits (num den : Nat) : Nat :=
  let exponent := max (binaryExponent num den - 52) (-1074)
  let significand :=
    if 0 ≤ exponent then roundDiv num (den * 2 ^ exponent.toNat)
    else roundDiv (num * 2 ^ (-exponent).toNat) den
  min ((exponent + 1074).toNat * 2 ^ (52 : Nat) + significand) (2047 * 2 ^ (52 : Nat))

/-- The double nearest to a signed ratio, a half to the even one. -/
def nearest (negative : Bool) (num den : Nat) : Float :=
  let magnitude := if num == 0 then 0 else nearestBits num den
  Float.ofBits (UInt64.ofNat (if negative then 2 ^ (63 : Nat) + magnitude else magnitude))

end ProofWalk.Decimal
