/-!
# The grammar of numerals

A numeral is a run of digits, then an optional point with more digits, then an optional exponent
with at least one digit, then an optional `i`.  Each part is split off the front of the text, so
what is split off is the longest numeral that the text starts with.
-/

namespace Reckoner.Numeral

def spanDigits (cs : List Char) : List Char × List Char :=
  (cs.takeWhile Char.isDigit, cs.dropWhile Char.isDigit)

/-- A leading point with the digits after it, and the rest. -/
def spanFraction : List Char → List Char × List Char
  | '.' :: cs => ('.' :: (spanDigits cs).1, (spanDigits cs).2)
  | cs => ([], cs)

/-- A leading sign and the rest. -/
def spanSign : List Char → List Char × List Char
  | '+' :: cs => (['+'], cs)
  | '-' :: cs => (['-'], cs)
  | cs => ([], cs)

/-- A leading exponent and the rest; an exponent mark counts only when a digit follows it. -/
def spanExponent : List Char → List Char × List Char
  | [] => ([], [])
  | c :: cs =>
    let (sign, tail) := spanSign cs
    let (digits, rest) := spanDigits tail
    if (c == 'e' || c == 'E') && !digits.isEmpty then (c :: sign ++ digits, rest) else ([], c :: cs)

/-- A leading imaginary unit and the rest. -/
def spanUnit : List Char → List Char × List Char
  | 'i' :: cs => (['i'], cs)
  | cs => ([], cs)

/-- The longest numeral at the start of a text that starts with a digit, and the rest. -/
def span (cs : List Char) : List Char × List Char :=
  let (whole, cs) := spanDigits cs
  let (fraction, cs) := spanFraction cs
  let (exponent, cs) := spanExponent cs
  let (unit, cs) := spanUnit cs
  (whole ++ fraction ++ exponent ++ unit, cs)

/-- Whether the whole text is one numeral. -/
def isNumeral : List Char → Bool
  | [] => false
  | c :: cs => c.isDigit && (span (c :: cs)).2.isEmpty

/-! ## Nothing is lost -/

theorem spanDigits_append (cs : List Char) : (spanDigits cs).1 ++ (spanDigits cs).2 = cs :=
  List.takeWhile_append_dropWhile

theorem spanFraction_append (cs : List Char) : (spanFraction cs).1 ++ (spanFraction cs).2 = cs := by
  unfold spanFraction
  split
  · rw [List.cons_append, spanDigits_append]
  · rfl

theorem spanSign_append (cs : List Char) : (spanSign cs).1 ++ (spanSign cs).2 = cs := by
  unfold spanSign
  split <;> rfl

theorem spanExponent_append (cs : List Char) : (spanExponent cs).1 ++ (spanExponent cs).2 = cs := by
  cases cs with
  | nil => rfl
  | cons c cs =>
    simp only [spanExponent]
    split
    · simp only [List.cons_append, List.append_assoc]
      rw [spanDigits_append, spanSign_append]
    · rfl

theorem spanUnit_append (cs : List Char) : (spanUnit cs).1 ++ (spanUnit cs).2 = cs := by
  unfold spanUnit
  split <;> rfl

theorem span_append (cs : List Char) : (span cs).1 ++ (span cs).2 = cs := by
  simp only [span, List.append_assoc]
  rw [spanUnit_append, spanExponent_append, spanFraction_append, spanDigits_append]

/-- A numeral takes at least its first digit. -/
theorem length_span_snd_lt {c : Char} {cs : List Char} (hc : c.isDigit = true) :
    (span (c :: cs)).2.length < (c :: cs).length := by
  have h := congrArg List.length (span_append (c :: cs))
  have h1 : 0 < (span (c :: cs)).1.length := by
    simp only [span, spanDigits, List.takeWhile_cons, hc, if_true, List.cons_append,
      List.length_cons]
    omega
  rw [List.length_append] at h
  omega

end Reckoner.Numeral
