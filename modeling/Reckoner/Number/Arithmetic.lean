import Reckoner.Fault.Guard
import Reckoner.Library

/-!
# Complex arithmetic at a working width

Sums, products and quotients are computed part by part with the cutting operations on reals.
Integer powers halve the exponent, and other powers come from a library.  Division by zero and
remainders of numbers that are not real are faults.
-/

namespace Reckoner.Number

def add (w : Nat) (a b : Number) : Number := ⟨Binary.add w a.re b.re, Binary.add w a.im b.im⟩

def sub (w : Nat) (a b : Number) : Number := ⟨Binary.sub w a.re b.re, Binary.sub w a.im b.im⟩

def mul (w : Nat) (a b : Number) : Number :=
  ⟨Binary.sub w (Binary.mul w a.re b.re) (Binary.mul w a.im b.im),
    Binary.add w (Binary.mul w a.re b.im) (Binary.mul w a.im b.re)⟩

/-- The square of the absolute value. -/
def normSq (w : Nat) (a : Number) : Dyadic :=
  Binary.add w (Binary.mul w a.re a.re) (Binary.mul w a.im a.im)

/-- The quotient by a number that is not zero: the product with the conjugate over the square of
the absolute value. -/
def quotient (w : Nat) (a b : Number) : Number :=
  let d := normSq w b
  ⟨Binary.div w (Binary.add w (Binary.mul w a.re b.re) (Binary.mul w a.im b.im)) d,
    Binary.div w (Binary.sub w (Binary.mul w a.im b.re) (Binary.mul w a.re b.im)) d⟩

/-- The quotient, or a fault if the divisor is zero. -/
def div (w : Nat) (a b : Number) : Except Fault Number :=
  if b.isZero then .error (.eval .divisionByZero) else .ok (quotient w a b)

def abs (w : Nat) (a : Number) : Dyadic := Binary.sqrt w (normSq w a)

/-! ## Powers -/

/-- The power with twice the exponent, and with one factor or divisor more if something rests. -/
def doublePower (w : Nat) (base : Number) (rest : Dyadic) (root : Number) : Except Fault Number :=
  let square := mul w root root
  if rest = 1 then .ok (mul w square base)
  else if rest = -1 then div w square base
  else .ok square

/-- Powers by recursion on an exponent without a fraction, which is halved as a real number, with at
most `depth` calls inside each other; no result if these are not enough. -/
def powerWithin (w : Nat) (base : Number) : Nat → Dyadic → Option (Except Fault Number)
  | 0, _ => none
  | depth + 1, x =>
    if x = 0 then some (.ok 1)
    else if x = 1 then some (.ok base)
    else if x = -1 then some (div w 1 base)
    else
      let half := Binary.trunc (Binary.div w x 2)
      let rest := Binary.sub w x (Binary.mul w half 2)
      (powerWithin w base depth half).map (· >>= doublePower w base rest)

/-- As many calls as the exponent of a power has bits. -/
def powerDepth (x : Dyadic) : Nat := (Binary.toInt x).natAbs.log2 + 1

/-- The power with an exponent without a fraction. -/
def powerInt (w : Nat) (base : Number) (x : Dyadic) : Except Fault Number :=
  (powerWithin w base (powerDepth x) x).getD (.error .endless)

/-- A power.  Zero to a power that is not an integer is zero if the exponent has a positive real
part. -/
def power (L : Library) (w : Nat) (base exponent : Number) : Except (Raised Fault) Number :=
  if exponent.isInteger then (powerInt w base exponent.re).mapError .fault
  else if base.isZero then
    if 0 < exponent.re then .ok 0 else .error (.fault (.eval .divisionByZero))
  else (L.power w base exponent).mapError .report

/-! ## Remainders -/

/-- The remainder of real numbers. -/
def rem (w : Nat) (a b : Number) : Except Fault Number :=
  if !a.isReal || !b.isReal then .error (.eval .complexRemainder)
  else if b.re = 0 then .error (.eval .divisionByZero)
  else .ok (ofReal (Binary.rem w a.re b.re))

end Reckoner.Number
