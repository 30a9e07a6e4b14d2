/-!
# Binary numbers cut to a width

Reals are dyadic numbers, ordered by value.  `cut w x` keeps the `w` leading bits of `x` and drops
the rest, that is, it rounds toward zero.  `ratio w n d` is the same cut of a quotient of integers.

That results keep exactly `w` bits is an assumption.  Arithmetic that stores numbers in whole
machine words keeps at least as many, and a result may then have more digits than the ones found
here.
-/

namespace Reckoner.Binary

/-- The exponent `e` with `2 ^ (e - 1) ≤ |x| < 2 ^ e`, and `0` at zero. -/
def magnitude : Dyadic → Int
  | .zero => 0
  | .ofOdd n k _ => (n.natAbs.log2 + 1 : Nat) - k

/-- The `w` leading bits of `x`: rounding toward zero. -/
def cut (w : Nat) (x : Dyadic) : Dyadic :=
  match x with
  | .zero => .zero
  | .ofOdd n k _ =>
    let extra := n.natAbs.log2 + 1 - w
    if extra = 0 then x else .ofIntWithPrec (n.tdiv (Nat.pow 2 extra : Nat)) (k - extra)

/-- The quotient `n / d` cut to `w` bits.  The shift leaves more than `w` bits in the integer
quotient, so cutting twice is cutting once. -/
def ratio (w : Nat) (n : Int) (d : Nat) : Dyadic :=
  let shift := w + d.log2 + 1 - n.natAbs.log2
  cut w (.ofIntWithPrec ((n * (Nat.pow 2 shift : Nat)).tdiv d) shift)

/-! ## Order -/

instance instOrd : Ord Dyadic where
  compare x y := compareOfLessAndEq x y

theorem compare_def (x y : Dyadic) : compare x y = compareOfLessAndEq x y := rfl

instance instLawfulOrderOrd : Std.LawfulOrderOrd Dyadic where
  isLE_compare x y := by
    rw [compare_def, isLE_compareOfLessAndEq Dyadic.le_antisymm Dyadic.not_lt Dyadic.le_total]
  isGE_compare x y := by
    rw [compare_def, isGE_compareOfLessAndEq Dyadic.le_antisymm Dyadic.not_lt Dyadic.le_total]

/-! ## Integer parts -/

/-- The integer part, toward zero. -/
def toInt : Dyadic → Int
  | .zero => 0
  | .ofOdd n k _ =>
    if k ≤ 0 then n * (Nat.pow 2 (-k).toNat : Nat) else n.tdiv (Nat.pow 2 k.toNat : Nat)

/-- The greatest integer that is not greater. -/
def floorInt : Dyadic → Int
  | .zero => 0
  | .ofOdd n k _ =>
    if k ≤ 0 then n * (Nat.pow 2 (-k).toNat : Nat) else n.fdiv (Nat.pow 2 k.toNat : Nat)

/-- Whether the number has no fraction. -/
def isInteger : Dyadic → Bool
  | .zero => true
  | .ofOdd _ k _ => decide (k ≤ 0)

def trunc (x : Dyadic) : Dyadic := if isInteger x then x else .ofInt (toInt x)

def floor (x : Dyadic) : Dyadic := if isInteger x then x else .ofInt (floorInt x)

def ceil (x : Dyadic) : Dyadic := -floor (-x)

/-- The nearest integer, a half going away from zero. -/
def round (x : Dyadic) : Dyadic :=
  let half : Dyadic := .ofIntWithPrec 1 1
  if x < 0 then ceil (x - half) else floor (x + half)

def abs (x : Dyadic) : Dyadic := if x < 0 then -x else x

@[simp] theorem cut_zero (w : Nat) : cut w 0 = 0 := rfl

end Reckoner.Binary
