import Reckoner.Binary.Cut

/-!
# The constants pi and e

Both are summed in fixed point with `spareBits` bits below the requested width and cut at the end.
-/

namespace Reckoner.Binary

/-- Bits carried below the requested width while a series is summed. -/
def spareBits : Nat := 64

/-- Adds the terms of the arctangent series of `1 / x`, from the one of index `j`, whose power of
`1 / x` is `power` in fixed point. -/
def arctanSum (x : Nat) : Nat → Nat → Nat → Int → Int
  | 0, _, _, acc => acc
  | fuel + 1, j, power, acc =>
    if power = 0 then acc
    else
      let term : Int := (power / (2 * j + 1) : Nat)
      arctanSum x fuel (j + 1) (power / (x * x)) (if j % 2 = 0 then acc + term else acc - term)

/-- The arctangent of `1 / x` in units of `2 ^ (-width)`. -/
def arctanRecip (width x : Nat) : Int := arctanSum x width 0 (Nat.pow 2 width / x) 0

/-- The number pi to `w` bits, by `pi = 16 * arctan (1 / 5) - 4 * arctan (1 / 239)`. -/
def pi (w : Nat) : Dyadic :=
  let width := w + spareBits
  cut w (.ofIntWithPrec (16 * arctanRecip width 5 - 4 * arctanRecip width 239) width)

/-- Adds the reciprocals of factorials from the one of index `j`, which is `term`. -/
def eulerSum : Nat → Nat → Nat → Nat → Nat
  | 0, _, _, acc => acc
  | fuel + 1, j, term, acc =>
    if term = 0 then acc else eulerSum fuel (j + 1) (term / (j + 1)) (acc + term)

/-- The base of the natural logarithm to `w` bits. -/
def euler (w : Nat) : Dyadic :=
  let width := w + spareBits
  cut w (.ofIntWithPrec (eulerSum (width + 2) 0 (Nat.pow 2 width) 0) width)

end Reckoner.Binary
