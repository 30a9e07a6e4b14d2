import Reckoner.Decimal.Reading
import Reckoner.Decimal.Rounding
import Reckoner.Fault.Basic
import Reckoner.Number.Basic
import Reckoner.Precision

/-!
# Numbers as text

`ofNumeral?` reads a numeral and `text` writes a number.  A value is written with the significant
digits of the precision; exponents from `plainLeast` to `plainGreatest` need no power of ten.
-/

namespace Reckoner.Number

/-! ## Reading -/

/-- The text with a zero after its first point, if no digit follows there. -/
def padPoint : List Char → List Char
  | [] => []
  | '.' :: rest =>
    match rest with
    | c :: _ => if c.isDigit then '.' :: rest else '.' :: '0' :: rest
    | [] => ['.', '0']
  | c :: rest => c :: padPoint rest

/-- Reads a numeral at width `w`; a trailing `i` makes it imaginary. -/
def ofNumeral? (w : Nat) (text : String) : Option Number :=
  let cs := text.toList
  match cs.getLast? with
  | some 'i' => (Decimal.read? (padPoint cs.dropLast)).map (fun d => ⟨0, d.toDyadic w⟩)
  | _ => (Decimal.read? (padPoint cs)).map (fun d => ⟨d.toDyadic w, 0⟩)

/-- Reads a numeral at width `w`, or fails with its text. -/
def ofNumeral (w : Nat) (text : String) : Except Fault Number :=
  match ofNumeral? w text with
  | some value => .ok value
  | none => .error (.compile (.notNumeral text))

/-! ## Writing -/

def plainLeast : Int := -3

def plainGreatest : Int := 6

/-- Whether a value with this exponent is written without a power of ten. -/
def isPlain (p : Precision) (exponent : Int) : Bool :=
  p != .auto && decide (plainLeast ≤ exponent) && decide (exponent ≤ plainGreatest)

/-- The digits of an integer, with a minus if it is negative. -/
def intChars (n : Int) : List Char :=
  (if n < 0 then ['-'] else []) ++ Nat.toDigits 10 n.natAbs

/-- Digits with the point where the exponent puts it. -/
def plainChars (s : Decimal.Significant) : List Char :=
  if s.exponent ≤ 0 then
    ['0', '.'] ++ List.replicate (-s.exponent).toNat '0' ++ s.digits
  else
    let whole := s.exponent.toNat
    if s.digits.length ≤ whole then s.digits ++ List.replicate (whole - s.digits.length) '0'
    else s.digits.take whole ++ ['.'] ++ s.digits.drop whole

/-- Digits with the point after the first one, and a power of ten. -/
def scientificChars (s : Decimal.Significant) : List Char :=
  let fraction := s.digits.drop 1
  s.digits.take 1 ++ (if fraction.isEmpty then [] else '.' :: fraction) ++ ['e'] ++
    intChars (s.exponent - 1)

def realChars (p : Precision) (x : Dyadic) : List Char :=
  if x = 0 then ['0']
  else
    let s := Decimal.significant p.shown x
    (if x < 0 then ['-'] else []) ++
      (if isPlain p s.exponent then plainChars s else scientificChars s)

/-- An imaginary part as text; a coefficient of one is not written. -/
def imaginaryChars (p : Precision) (y : Dyadic) : List Char :=
  if y = 1 then ['i'] else if y = -1 then ['-', 'i'] else realChars p y ++ ['i']

def chars (p : Precision) (z : Number) : List Char :=
  if z.im = 0 then realChars p z.re
  else if z.re = 0 then imaginaryChars p z.im
  else realChars p z.re ++ (if 0 < z.im then ['+'] else []) ++ imaginaryChars p z.im

def realText (p : Precision) (x : Dyadic) : String := String.ofList (realChars p x)

def text (p : Precision) (z : Number) : String := String.ofList (chars p z)

end Reckoner.Number
