import Reckoner.Binary.Cut
import Reckoner.Text

/-!
# Decimal text as numbers

A decimal text has an optional minus, a mantissa of digits with at most one point, and an exponent
after the last of its exponent marks.  Blanks before the text and inside the mantissa do not count,
nor does what follows the digits of the exponent, nor what follows a NUL character.
-/

namespace Reckoner

/-- A decimal: `mantissa * 10 ^ exponent`, negated if `negative`. -/
structure Decimal where
  negative : Bool
  mantissa : Nat
  exponent : Int
deriving DecidableEq

namespace Decimal

/-- The number that a run of digits denotes. -/
def natOfDigits (ds : List Char) : Nat :=
  ds.foldl (fun n d => 10 * n + (d.toNat - '0'.toNat)) 0

/-- Characters that introduce an exponent. -/
def isExponentMark (c : Char) : Bool := c == 'e' || c == 'E' || c == '@'

/-- The text before and after its last exponent mark, if it has one. -/
def splitExponent (cs : List Char) : List Char × Option (List Char) :=
  let back := cs.reverse
  match back.dropWhile (fun c => !isExponentMark c) with
  | [] => (cs, none)
  | _ :: front => (front.reverse, some (back.takeWhile (fun c => !isExponentMark c)).reverse)

/-- The digits before and after the point of a mantissa that has no blanks. -/
def splitPoint? (cs : List Char) : Option (List Char × List Char) :=
  match cs.dropWhile Char.isDigit with
  | [] => some (cs, [])
  | '.' :: fraction =>
    if fraction.all Char.isDigit then some (cs.takeWhile Char.isDigit, fraction) else none
  | _ => none

/-- The value of the leading digits of an exponent, which has at least one. -/
def readExponentDigits? (cs : List Char) : Option Nat :=
  match cs.takeWhile Char.isDigit with
  | [] => none
  | ds => some (natOfDigits ds)

/-- The value of an exponent with an optional sign. -/
def readExponent? : List Char → Option Int
  | '-' :: cs => (readExponentDigits? cs).map (fun n => -(n : Int))
  | '+' :: cs => (readExponentDigits? cs).map Int.ofNat
  | cs => (readExponentDigits? cs).map Int.ofNat

/-- Whether a text starts with a digit, possibly after a point. -/
def startsWithDigit : List Char → Bool
  | '.' :: c :: _ => c.isDigit
  | c :: _ => c.isDigit
  | [] => false

/-- Reads a decimal without a sign. -/
def readUnsigned? (cs : List Char) : Option (Nat × Int) := do
  guard (startsWithDigit cs)
  let (mantissa, exponent?) := splitExponent cs
  let (whole, fraction) ← splitPoint? (Text.strip mantissa)
  let exponent ← match exponent? with
    | none => some 0
    | some text => readExponent? text
  return (natOfDigits (whole ++ fraction), exponent - fraction.length)

def read? (cs : List Char) : Option Decimal :=
  match (cs.takeWhile (fun c => c != '\x00')).dropWhile Text.isBlank with
  | '-' :: rest => (readUnsigned? rest).map (fun (m, e) => ⟨true, m, e⟩)
  | rest => (readUnsigned? rest).map (fun (m, e) => ⟨false, m, e⟩)

def signed (d : Decimal) : Int := if d.negative then -(d.mantissa : Int) else d.mantissa

/-- The decimal cut to exactly `w` bits (see `Binary.cut`); of a power of ten, the power of two goes
into the exponent. -/
def toDyadic (w : Nat) (d : Decimal) : Dyadic :=
  if 0 ≤ d.exponent then
    Binary.cut w (.ofIntWithPrec (d.signed * (Nat.pow 5 d.exponent.toNat : Nat)) (-d.exponent))
  else Binary.ratio w d.signed (Nat.pow 10 (-d.exponent).toNat)

end Decimal

end Reckoner
