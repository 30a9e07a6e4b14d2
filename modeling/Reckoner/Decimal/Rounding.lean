/-!
# Rounding to significant digits

A positive dyadic number is rounded to `p` significant decimal digits, halves away from zero, and
given as `0.d₁d₂… * 10 ^ exponent` without trailing zeros.
-/

namespace Reckoner.Decimal

/-- The least `k` from the given one on with `n < 10 ^ k`, where `power` is `10 ^ k`. -/
def digitCountFrom (n : Nat) : Nat → Nat → Nat → Nat
  | 0, k, _ => k
  | fuel + 1, k, power => if n < power then k else digitCountFrom n fuel (k + 1) (10 * power)

/-- A number of digits that `n` has at least: `21306 / 70777` is just below the decimal logarithm of
two. -/
def leastDigitCount (n : Nat) : Nat := n.log2 * 21306 / 70777 + 1

/-- The number of decimal digits of `n`; zero has one. -/
def digitCount (n : Nat) : Nat :=
  digitCountFrom n (n.log2 + 1) (leastDigitCount n) (Nat.pow 10 (leastDigitCount n))

/-- The exponent `e` with `10 ^ (e - 1) ≤ num / den < 10 ^ e`, for positive `num` and `den`. -/
def decimalExponent (num den : Nat) : Int :=
  if den ≤ num then digitCount (num / den) else 1 - (digitCount ((den - 1) / num) : Int)

/-- The quotient rounded to the nearest integer, a half going up. -/
def roundQuotient (num den : Nat) : Nat := (2 * num + den) / (2 * den)

/-- The quotient `num / den` in units of `10 ^ (e - p)`, rounded. -/
def roundScaled (p num den : Nat) (e : Int) : Nat :=
  let shift := (p : Int) - e
  if 0 ≤ shift then roundQuotient (num * Nat.pow 10 shift.toNat) den
  else roundQuotient num (den * Nat.pow 10 (-shift).toNat)

/-- Significant digits: the number `0.d₁d₂… * 10 ^ exponent`. -/
structure Significant where
  digits : List Char
  exponent : Int
deriving DecidableEq

def dropTrailingZeros (ds : List Char) : List Char :=
  (ds.reverse.dropWhile (fun c => c == '0')).reverse

/-- The quotient `num / den` rounded to `p` significant digits.  Rounding up to a power of ten moves
the exponent. -/
def roundFraction (p num den : Nat) : Significant :=
  let e := decimalExponent num den
  let m := roundScaled p num den e
  ⟨dropTrailingZeros (Nat.toDigits 10 m), if Nat.pow 10 p ≤ m then e + 1 else e⟩

/-- The absolute value of a dyadic number as a fraction. -/
def fractionOf : Dyadic → Nat × Nat
  | .zero => (0, 1)
  | .ofOdd n k _ => (n.natAbs * Nat.pow 2 (-k).toNat, Nat.pow 2 k.toNat)

/-- The absolute value of a number rounded to `p` significant digits. -/
def significant (p : Nat) (x : Dyadic) : Significant :=
  roundFraction p (fractionOf x).1 (fractionOf x).2

end Reckoner.Decimal
