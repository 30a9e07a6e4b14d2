import Reckoner.Binary.Cut

/-!
# Arithmetic at a working width

Every operation takes the working width `w` and cuts its exact result to `w` bits.  Addition aligns
its summands in a window of `w + windowBits` bits below the larger one, and a summand that lies
wholly below the window does not count.

A counter runs from a first to a last value by `k ↦ add w k 1`.  Where a unit is below the last kept
bit the counter stands still and counting has no end.  The run is given one step more than an
advancing counter can take, so a counter that is still running when the steps are used up never
reaches the end, and `stuck` is the result.
-/

namespace Reckoner.Binary

universe u v

/-- Bits that an aligned sum keeps below the working width. -/
def windowBits : Nat := 128

/-- The sum.  A summand wholly below the window of the other one is dropped. -/
def add (w : Nat) (x y : Dyadic) : Dyadic :=
  if x = 0 then cut w y
  else if y = 0 then cut w x
  else
    let gap := magnitude x - magnitude y
    let window : Int := (w + windowBits : Nat)
    if window < gap then cut w x
    else if window < -gap then cut w y
    else cut w (x + y)

def sub (w : Nat) (x y : Dyadic) : Dyadic := add w x (-y)

def mul (w : Nat) (x y : Dyadic) : Dyadic := cut w (x * y)

/-- The quotient; division by zero gives zero, and callers rule it out. -/
def div (w : Nat) (x y : Dyadic) : Dyadic :=
  match x, y with
  | .ofOdd n k _, .ofOdd m l _ => ratio w (n * m.sign) m.natAbs >>> (k - l)
  | _, _ => 0

/-- What is left of `x` after taking away as many whole `y` as the cut quotient has. -/
def rem (w : Nat) (x y : Dyadic) : Dyadic :=
  sub w x (mul w (trunc (div w x y)) y)

/-! ## Square roots -/

/-- Newton steps downward from a guess `r` that is not below the integer square root of `n`. -/
def natSqrtFrom (n : Nat) : Nat → Nat → Nat
  | 0, r => r
  | fuel + 1, r =>
    let r' := (r + n / r) / 2
    if r' < r then natSqrtFrom n fuel r' else r

/-- The integer square root, from a power of two above it. -/
def natSqrt (n : Nat) : Nat :=
  if n = 0 then 0 else natSqrtFrom n (n.log2 + 2) (Nat.pow 2 (n.log2 / 2 + 1))

/-- The square root of a number that is not negative.  The shift makes the exponent even and leaves
more than `w` bits in the integer root. -/
def sqrt (w : Nat) : Dyadic → Dyadic
  | .zero => 0
  | .ofOdd n k _ =>
    let wide := 2 * w + 2 - n.natAbs.log2
    let shift := if (k + wide) % 2 = 0 then wide else wide + 1
    cut w (.ofIntWithPrec (natSqrt (n.natAbs * Nat.pow 2 shift)) ((k + shift) / 2))

/-! ## Counting -/

/-- Runs `step` at the counter and at what follows it, while the counter is at most `last`. -/
@[specialize]
def countUp {m : Type u → Type v} [Monad m] {α : Type u} (w : Nat) (last : Dyadic) (stuck : m α)
    (step : Dyadic → α → m α) : Nat → Dyadic → α → m α
  | 0, _, _ => stuck
  | fuel + 1, k, acc =>
    if k ≤ last then do
      let acc ← step k acc
      countUp w last stuck step fuel (add w k 1) acc
    else pure acc

/-- The number of unit steps from `first` through `last`. -/
def stepCount (first last : Dyadic) : Nat := (toInt (last - first) + 1).toNat

/-- Runs `step` at `first` and at what follows it through `last`. -/
@[inline]
def countThrough {m : Type u → Type v} [Monad m] {α : Type u} (w : Nat) (first last : Dyadic)
    (stuck : m α) (step : Dyadic → α → m α) (acc : α) : m α :=
  countUp w last stuck step (stepCount first last + 1) first acc

end Reckoner.Binary
