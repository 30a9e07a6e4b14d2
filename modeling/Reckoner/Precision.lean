/-!
# Precision settings

A setting says with how many significant decimal digits values are shown.  Values are computed with
`guardDigits` more digits, the working digits, and `Precision.bitsFor` turns a number of working
digits into a width in bits.  Values have exactly this width; see `Binary.cut`.
-/

namespace Reckoner

/-- How values are shown: with all digits of a wide setting and always with an exponent, or with a
chosen positive number of significant digits. -/
inductive Precision where
  | auto
  | digits (n : Nat) (pos : 0 < n)
deriving DecidableEq

namespace Precision

def standard : Precision := .digits 32 (by decide)

/-- A positive digit count as a setting. -/
def ofDigits? (n : Nat) : Option Precision :=
  if h : 0 < n then some (.digits n h) else none

def autoDigits : Nat := 100

/-- Digits computed beyond the ones shown. -/
def guardDigits : Nat := 8

def shown : Precision → Nat
  | .auto => autoDigits
  | .digits n _ => n

/-- The number of digits that values are computed with. -/
def workingDigits (p : Precision) : Nat := p.shown + guardDigits

/-- One bit more than is needed for a number of decimal digits at `1000 / 301` bits a digit. -/
def bitsFor (digits : Nat) : Nat := (digits * 1000 + 300) / 301 + 1

/-- The width in bits of values computed under a setting. -/
def bits (p : Precision) : Nat := bitsFor p.workingDigits

theorem shown_pos (p : Precision) : 0 < p.shown := by
  cases p with
  | auto => decide
  | digits n pos => exact pos

theorem bitsFor_pos (digits : Nat) : 0 < bitsFor digits := Nat.succ_pos _

theorem bits_pos (p : Precision) : 0 < p.bits := bitsFor_pos _

end Precision

end Reckoner
