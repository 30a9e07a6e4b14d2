import Reckoner.Binary.Cut

/-!
# Complex numbers

A number has a real and an imaginary part, both dyadic.  Numbers are ordered by the real part and
then by the imaginary part, so that lists of numbers can index ordered maps.
-/

namespace Reckoner

/-- A complex number with dyadic parts. -/
structure Number where
  re : Dyadic
  im : Dyadic
deriving DecidableEq

namespace Number

/-- A real number. -/
def ofReal (x : Dyadic) : Number := ⟨x, 0⟩

def ofInt (n : Int) : Number := ofReal (.ofInt n)

instance instOfNat (n : Nat) : OfNat Number n where
  ofNat := ofInt n

instance instInhabited : Inhabited Number := ⟨0⟩

def unit : Number := ⟨0, 1⟩

def isZero (z : Number) : Bool := z.re == 0 && z.im == 0

def isReal (z : Number) : Bool := z.im == 0

/-- Whether the number is real without a fraction. -/
def isInteger (z : Number) : Bool := z.isReal && Binary.isInteger z.re

def neg (z : Number) : Number := ⟨-z.re, -z.im⟩

/-! ## Order -/

instance instOrd : Ord Number where
  compare := compareLex (compareOn (·.re)) (compareOn (·.im))

theorem compare_def : (compare : Number → Number → Ordering) =
    compareLex (compareOn (·.re)) (compareOn (·.im)) := rfl

instance instTransOrd : Std.TransOrd Number := by
  unfold Std.TransOrd
  rw [compare_def]
  infer_instance

instance instLawfulEqOrd : Std.LawfulEqOrd Number where
  eq_of_compare {a b} h := by
    rw [compare_def] at h
    simp only [compareLex, compareOn, Ordering.then_eq_eq] at h
    cases a
    cases b
    simp only [Number.mk.injEq]
    exact ⟨Std.LawfulEqOrd.eq_of_compare h.1, Std.LawfulEqOrd.eq_of_compare h.2⟩

@[simp] theorem isZero_iff (z : Number) : z.isZero = true ↔ z = 0 := by
  cases z
  simp only [isZero, Bool.and_eq_true, beq_iff_eq]
  constructor
  · rintro ⟨rfl, rfl⟩
    rfl
  · intro h
    exact ⟨congrArg Number.re h, congrArg Number.im h⟩

end Number

end Reckoner
