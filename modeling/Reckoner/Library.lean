import Reckoner.Binary.Arithmetic
import Reckoner.Binary.Constants
import Reckoner.Number.Basic
import Reckoner.Precision

/-!
# Libraries of functions

Elementary functions, powers whose exponent is not an integer, the gamma function and the constants
are not computed here.  They come from a library, which gives a value at a working width in bits, or
reports in words why it has none.  Nothing else is assumed of a library: it always answers in one of
these ways, and the width and the arguments determine the answer.

`Library.plain` is the library of the console.  It has the constants and the square roots of real
numbers, and reports that it has no other function.
-/

namespace Reckoner

inductive Elementary where
  | sin | cos | tan | asin | acos | atan
  | sinh | cosh | tanh | asinh | acosh | atanh
  | sqrt | exp | ln | log10
deriving DecidableEq

namespace Elementary

def all : List Elementary :=
  [.sin, .cos, .tan, .asin, .acos, .atan, .sinh, .cosh, .tanh, .asinh, .acosh, .atanh, .sqrt, .exp,
    .ln, .log10]

def name : Elementary → String
  | .sin => "sin"
  | .cos => "cos"
  | .tan => "tan"
  | .asin => "asin"
  | .acos => "acos"
  | .atan => "atan"
  | .sinh => "sinh"
  | .cosh => "cosh"
  | .tanh => "tanh"
  | .asinh => "asinh"
  | .acosh => "acosh"
  | .atanh => "atanh"
  | .sqrt => "sqrt"
  | .exp => "exp"
  | .ln => "ln"
  | .log10 => "log10"

end Elementary

/-- Values, or reports why there are none, at a width in bits. -/
structure Library where
  elementary : Elementary → Nat → Number → Except String Number
  power : Nat → Number → Number → Except String Number
  gamma : Nat → Dyadic → Except String Dyadic
  pi : Nat → Dyadic
  euler : Nat → Dyadic

namespace Library

/-- What is reported where a library has no value. -/
def unavailable {α : Type} : Except String α := .error "no approximation is available"

/-- The square root of a real number; that of a negative one is imaginary. -/
def realSqrt (w : Nat) (a : Number) : Except String Number :=
  if !a.isReal then unavailable
  else if a.re < 0 then .ok ⟨0, Binary.sqrt w (-a.re)⟩
  else .ok (.ofReal (Binary.sqrt w a.re))

def plain : Library where
  elementary f w a := if f = .sqrt then realSqrt w a else unavailable
  power _ _ _ := unavailable
  gamma _ _ := unavailable
  pi := Binary.pi
  euler := Binary.euler

end Library

/-! ## Settings of arithmetic -/

/-- How numbers are shown and computed.  The working digits follow the precision, except while a
constant is computed to a number of digits of its own. -/
structure Numerics where
  library : Library
  precision : Precision
  digits : Nat

namespace Numerics

def bits (m : Numerics) : Nat := Precision.bitsFor m.digits

def start (L : Library) (p : Precision) : Numerics := ⟨L, p, p.workingDigits⟩

def setPrecision (m : Numerics) (p : Precision) : Numerics :=
  { m with precision := p, digits := p.workingDigits }

def setDigits (m : Numerics) (digits : Nat) : Numerics := { m with digits := digits }

theorem bits_pos (m : Numerics) : 0 < m.bits := Precision.bitsFor_pos _

end Numerics

end Reckoner
