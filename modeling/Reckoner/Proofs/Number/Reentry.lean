import Reckoner.Proofs.Evaluation.Terms
import Reckoner.Proofs.Number.Layout
import Reckoner.Proofs.Session.Invariant

/-!
# Entering a number as it is written

A number is written as a signed term, or as a sum of two: its real part and its imaginary part.

1. `Number.Reread p y y'`: the text of a positive number `y` is a numeral and is read as `y'`, which
   has the same text.  There is always such a number (`Number.exists_reread`).
2. The text of a number is compiled and evaluated to a number with the same text, unless the
   imaginary part is written like one and is not one (`Number.text_after_reentry`): a coefficient
   of exactly one is left out.
-/

namespace Reckoner

open Decimal Numeral Grammar

/-! ## Signs -/

namespace Binary

variable {w : Nat} {y : Dyadic}

theorem toRat_pos_iff : 0 < y.toRat ↔ 0 < y := by
  rw [← Dyadic.toRat_zero]
  exact Dyadic.toRat_lt_toRat_iff

def signed (negative : Bool) (y : Dyadic) : Dyadic := if negative then -y else y

theorem signed_lt_zero_iff (hy : 0 < y) (negative : Bool) :
    signed negative y < 0 ↔ negative = true := by
  rw [← toRat_pos_iff] at hy
  rw [← Dyadic.toRat_lt_toRat_iff, Dyadic.toRat_zero]
  cases negative with
  | false =>
    show y.toRat < 0 ↔ _
    simp [hy.le]
  | true =>
    show (-y).toRat < 0 ↔ _
    rw [Dyadic.toRat_neg]
    simpa using hy

theorem signed_pos_iff (hy : 0 < y) (negative : Bool) :
    0 < signed negative y ↔ negative = false := by
  rw [← toRat_pos_iff] at hy ⊢
  cases negative with
  | false =>
    show 0 < y.toRat ↔ _
    simp [hy]
  | true =>
    show 0 < (-y).toRat ↔ _
    rw [Dyadic.toRat_neg]
    simp [hy.le]

theorem signed_ne_zero (hy : 0 < y) (negative : Bool) : signed negative y ≠ 0 := by
  intro hzero
  have hneg := signed_lt_zero_iff hy negative
  have hpos := signed_pos_iff hy negative
  rw [hzero] at hneg hpos
  cases negative with
  | false => exact absurd (hpos.2 rfl) (by decide)
  | true => exact absurd (hneg.2 rfl) (by decide)

theorem exists_signed {x : Dyadic} (hx : x ≠ 0) : ∃ negative y, 0 < y ∧ x = signed negative y := by
  have hx' : x.toRat ≠ 0 := by rwa [← Dyadic.toRat_zero, ne_eq, Dyadic.toRat_inj]
  rcases lt_or_gt_of_ne hx' with hneg | hpos
  · refine ⟨true, -x, ?_, ?_⟩
    · rw [← toRat_pos_iff, Dyadic.toRat_neg]
      linarith
    · exact (neg_neg_eq x).symm
  · exact ⟨false, x, toRat_pos_iff.1 hpos, rfl⟩

theorem abs_signed (hy : 0 < y) (negative : Bool) : abs (signed negative y) = y := by
  unfold abs
  cases negative with
  | false => exact if_neg (mt (signed_lt_zero_iff hy false).1 Bool.false_ne_true)
  | true =>
    rw [if_pos ((signed_lt_zero_iff hy true).2 rfl)]
    exact neg_neg_eq y

theorem Fits.signed (h : Fits w y) (negative : Bool) : Fits w (signed negative y) := by
  cases negative with
  | false => exact h
  | true => exact h.neg

/-! ## Sums with zero -/

theorem zero_add_of_fits (h : Fits w y) : add w 0 y = y := by
  unfold add
  rw [if_pos rfl, h.cut_eq]

theorem add_zero_of_fits (h : Fits w y) : add w y 0 = y := by
  unfold add
  by_cases hy : y = 0
  · rw [if_pos hy, hy, cut_zero]
  · rw [if_neg hy, if_pos rfl, h.cut_eq]

theorem zero_sub_of_fits (h : Fits w y) : sub w 0 y = -y := zero_add_of_fits h.neg

theorem sub_zero_of_fits (h : Fits w y) : sub w y 0 = y := add_zero_of_fits h

end Binary

namespace Number

open Binary (signed)

theorem signedValue_real {w : Nat} {y : Dyadic} (h : Binary.Fits w y) (negative : Bool) :
    Term.signedValue w negative ⟨y, 0⟩ = ⟨signed negative y, 0⟩ := by
  cases negative with
  | false => rfl
  | true =>
    show Number.mk (Binary.sub w 0 y) (Binary.sub w 0 0) = ⟨-y, 0⟩
    rw [Binary.zero_sub_of_fits h, Binary.sub_zero_of_fits (Binary.fits_zero w)]

theorem signedValue_imaginary {w : Nat} {y : Dyadic} (h : Binary.Fits w y) (negative : Bool) :
    Term.signedValue w negative ⟨0, y⟩ = ⟨0, signed negative y⟩ := by
  cases negative with
  | false => rfl
  | true =>
    show Number.mk (Binary.sub w 0 0) (Binary.sub w 0 y) = ⟨0, -y⟩
    rw [Binary.zero_sub_of_fits h, Binary.sub_zero_of_fits (Binary.fits_zero w)]

theorem sumValue_parts {w : Nat} {x y : Dyadic} (hx : Binary.Fits w x) (hy : Binary.Fits w y)
    (negative : Bool) :
    Term.sumValue w ⟨x, 0⟩ negative ⟨0, y⟩ = ⟨x, signed negative y⟩ := by
  cases negative with
  | false =>
    show Number.mk (Binary.add w x 0) (Binary.add w 0 y) = ⟨x, y⟩
    rw [Binary.add_zero_of_fits hx, Binary.zero_add_of_fits hy]
  | true =>
    show Number.mk (Binary.sub w x 0) (Binary.sub w 0 y) = ⟨x, -y⟩
    rw [Binary.sub_zero_of_fits hx, Binary.zero_sub_of_fits hy]

/-! ## Texts with signs -/

theorem significant_signed (p : ℕ) (negative : Bool) (y : Dyadic) :
    significant p (signed negative y) = significant p y := by
  cases negative with
  | false => rfl
  | true =>
    have hfraction : fractionOf (-y) = fractionOf y := by
      cases y with
      | zero => rfl
      | ofOdd n k hn =>
        show ((-n).natAbs * _, _) = (n.natAbs * _, _)
        rw [Int.natAbs_neg]
    unfold significant
    rw [show signed true y = -y from rfl, hfraction]

variable {p : Precision} {x y : Dyadic}

theorem realChars_of_pos (hy : 0 < y) :
    realChars p y = if isPlain p (significant p.shown y).exponent
      then plainChars (significant p.shown y) else scientificChars (significant p.shown y) := by
  have hzero : y ≠ 0 := Binary.signed_ne_zero hy false
  have hneg : ¬ y < 0 := mt (Binary.signed_lt_zero_iff hy false).1 Bool.false_ne_true
  unfold realChars
  rw [if_neg hzero]
  dsimp only
  rw [if_neg hneg, List.nil_append]

theorem realChars_signed (hy : 0 < y) (negative : Bool) :
    realChars p (signed negative y) = signChars negative ++ realChars p y := by
  rw [realChars_of_pos hy]
  unfold realChars
  rw [if_neg (Binary.signed_ne_zero hy negative), significant_signed]
  dsimp only
  cases negative with
  | false => rw [if_neg (mt (Binary.signed_lt_zero_iff hy false).1 Bool.false_ne_true)]; rfl
  | true => rw [if_pos ((Binary.signed_lt_zero_iff hy true).2 rfl)]; rfl

theorem imaginaryChars_of_pos (hy : 0 < y) :
    imaginaryChars p y = if y = 1 then ['i'] else realChars p y ++ ['i'] := by
  have hminus : y ≠ -1 := by
    rintro rfl
    exact absurd hy (by decide)
  unfold imaginaryChars
  rw [if_neg hminus]

theorem imaginaryChars_signed (hy : 0 < y) (negative : Bool) :
    imaginaryChars p (signed negative y) = signChars negative ++ imaginaryChars p y := by
  cases negative with
  | false => rfl
  | true =>
    have hone : signed true y ≠ 1 := by
      intro hone
      have hneg := (Binary.signed_lt_zero_iff hy true).2 rfl
      rw [hone] at hneg
      exact absurd hneg (by decide)
    have hminus : signed true y = -1 ↔ y = 1 := by
      show -y = -1 ↔ y = 1
      rw [← Dyadic.toRat_inj, Dyadic.toRat_neg, Dyadic.toRat_neg, neg_inj, Dyadic.toRat_inj]
    rw [imaginaryChars_of_pos hy]
    unfold imaginaryChars
    rw [if_neg hone, realChars_signed hy]
    by_cases hy1 : y = 1
    · rw [if_pos (hminus.2 hy1), if_pos hy1]
      rfl
    · rw [if_neg (mt hminus.1 hy1), if_neg hy1, List.append_assoc]

theorem chars_sum (hx : 0 < x) (hy : 0 < y) (negative negative' : Bool) :
    chars p ⟨signed negative x, signed negative' y⟩ =
      signChars negative ++ realChars p x ++ (joiner negative').symbol :: imaginaryChars p y := by
  unfold chars
  rw [if_neg (Binary.signed_ne_zero hy _), if_neg (Binary.signed_ne_zero hx _),
    realChars_signed hx, imaginaryChars_signed hy, List.append_assoc _ _ (_ ++ _)]
  congr 1
  cases negative' with
  | false => rw [if_pos ((Binary.signed_pos_iff hy false).2 rfl)]; rfl
  | true => rw [if_neg (mt (Binary.signed_pos_iff hy true).1 Bool.noConfusion)]; rfl

theorem chars_real (hx : 0 < x) (negative : Bool) :
    chars p ⟨signed negative x, 0⟩ = signChars negative ++ realChars p x := by
  unfold chars
  rw [if_pos rfl, realChars_signed hx]

theorem chars_imaginary (hy : 0 < y) (negative : Bool) :
    chars p ⟨0, signed negative y⟩ = signChars negative ++ imaginaryChars p y := by
  unfold chars
  rw [if_neg (Binary.signed_ne_zero hy _), if_pos rfl, imaginaryChars_signed hy]

/-! ## Reading a text back -/

/-- The text of a positive number is a numeral, with or without the imaginary unit, and is read as a
number with the same text. -/
structure Reread (p : Precision) (y y' : Dyadic) : Prop where
  pos : 0 < y'
  fits : Binary.Fits p.bits y'
  text : realChars p y' = realChars p y
  numeral : IsNumeral (realChars p y)
  imaginary : IsNumeral (realChars p y ++ ['i'])
  real : ofNumeral? p.bits (String.ofList (realChars p y)) = some ⟨y', 0⟩
  unit : ofNumeral? p.bits (String.ofList (realChars p y ++ ['i'])) = some ⟨0, y'⟩

theorem exists_reread (p : Precision) (hy : 0 < y) : ∃ y', Reread p y y' := by
  have hshown := p.shown_pos
  have hpos := Binary.toRat_pos_iff.2 hy
  have hwritten := isWritten_significant hshown hpos
  have hdenotes : Denotes (realChars p y) (significant p.shown y).value := by
    rw [realChars_of_pos hy]
    split
    · exact denotes_plainChars hwritten
    · exact denotes_scientificChars hwritten
  obtain ⟨d, hread, hsign, hvalue⟩ := hdenotes.read
  have hmantissa : d.mantissa ≠ 0 := by
    intro hzero
    have hvaluepos := value_pos hshown hpos
    rw [← hvalue, Decimal.magnitude, hzero, Nat.cast_zero, zero_mul] at hvaluepos
    exact lt_irrefl 0 hvaluepos
  have hnear := Decimal.near_toDyadic p.bits_pos hsign hmantissa
  rw [hvalue] at hnear
  have hsame := significant_eq_of_near hshown p.ten_pow_le_two_pow_bits hpos hnear
  have hpos' := Binary.toRat_pos_iff.1 hnear.pos
  refine ⟨d.toDyadic p.bits, hpos', hnear.fits, ?_, hdenotes.numeral, hdenotes.imaginary, ?_, ?_⟩
  · rw [realChars_of_pos hpos', hsame, realChars_of_pos hy]
  · exact ofNumeral?_real hdenotes.unit hread _ String.toList_ofList
  · exact ofNumeral?_imaginary hread _ String.toList_ofList

/-! ## One -/

theorem dropTrailingZeros_toDigits_ten_pow (k : ℕ) :
    dropTrailingZeros (Nat.toDigits 10 (10 ^ k)) = ['1'] := by
  induction k with
  | zero => rfl
  | succ k ih =>
    rw [toDigits_ten_pow_succ, dropTrailingZeros_append_zero, ih]

theorem significant_one {n : ℕ} (hn : 1 ≤ n) : significant n 1 = ⟨['1'], 1⟩ := by
  have hscaled : roundScaled n 1 1 1 = 10 ^ (n - 1) := by
    obtain ⟨k, rfl⟩ : ∃ k, n = k + 1 := ⟨n - 1, by omega⟩
    have hshift : ((k + 1 : ℕ) : ℤ) - 1 = k := by omega
    unfold roundScaled roundQuotient
    dsimp only
    rw [hshift, if_pos (Int.natCast_nonneg k), Int.toNat_natCast, Nat.pow_eq, Nat.add_sub_cancel]
    omega
  have hless : ¬ 10 ^ n ≤ 10 ^ (n - 1) := by
    rw [Nat.pow_le_pow_iff_right (by decide)]
    omega
  have hfraction : fractionOf 1 = (1, 1) := by decide
  have hexponent : decimalExponent 1 1 = 1 := by decide
  unfold significant roundFraction
  rw [hfraction]
  dsimp only
  rw [hexponent, hscaled, dropTrailingZeros_toDigits_ten_pow, Nat.pow_eq, if_neg hless]

theorem realChars_one (p : Precision) :
    realChars p 1 = if p = .auto then ['1', 'e', '0'] else ['1'] := by
  rw [realChars_of_pos (by decide), significant_one p.shown_pos]
  cases p with
  | auto => rfl
  | digits n pos => rfl

theorem ofNumeral?_one {w : Nat} (hw : 1 ≤ w) (p : Precision) :
    ofNumeral? w (String.ofList (realChars p 1)) = some ⟨1, 0⟩ := by
  have hone : Decimal.toDyadic w ⟨false, 1, 0⟩ = 1 := (Binary.fits_one hw).cut_eq
  rw [realChars_one, ← hone]
  split
  · exact ofNumeral?_real (by decide) (by decide) w String.toList_ofList
  · exact ofNumeral?_real (by decide) (by decide) w String.toList_ofList

/-- The number is not one or minus one, but its absolute value is written like one. -/
def ResemblesOne (p : Precision) (y : Dyadic) : Prop :=
  Binary.abs y ≠ 1 ∧ realText p (Binary.abs y) = realText p 1

theorem Reread.eq_one {y' : Dyadic} (h : Reread p y y') (hone : realChars p y = realChars p 1) :
    y' = 1 := by
  have hread := h.real
  rw [hone, ofNumeral?_one p.bits_pos] at hread
  cases hread
  rfl

/-! ## Terms -/

variable {s : Settings}

theorem Reread.term {y' : Dyadic} (h : Reread s.precision y y') :
    ∃ o, Term (.fresh s) (.numeral (realChars s.precision y)) o ⟨y', 0⟩ :=
  ⟨_, term_numeral h.numeral h.real⟩

/-- The text of an imaginary part is a term, and its value has the same text unless it resembles
one. -/
theorem exists_imaginary_term (s : Settings) (hy : 0 < y) :
    ∃ word o y', word.chars = imaginaryChars s.precision y ∧ Term (.fresh s) word o ⟨0, y'⟩ ∧
      0 < y' ∧ Binary.Fits s.precision.bits y' ∧
      (imaginaryChars s.precision y' = imaginaryChars s.precision y ↔
        ¬ (y ≠ 1 ∧ realChars s.precision y = realChars s.precision 1)) := by
  by_cases hone : y = 1
  · subst hone
    have hvalue : (Context.fresh s).valueOf? (String.ofList ['i']) = some .unit := by
      rw [Context.valueOf?_fresh]
      rfl
    refine ⟨.name ['i'], _, 1, rfl, term_name (by decide) hvalue, by decide,
      Binary.fits_one s.precision.bits_pos, ?_⟩
    simp
  · obtain ⟨y', h⟩ := exists_reread s.precision hy
    rw [imaginaryChars_of_pos hy, if_neg hone]
    refine ⟨.numeral _, _, y', rfl, term_numeral h.imaginary h.unit, h.pos, h.fits, ?_⟩
    rw [imaginaryChars_of_pos h.pos]
    by_cases htext : realChars s.precision y = realChars s.precision 1
    · -- the coefficient is left out now
      rw [if_pos (h.eq_one htext), iff_false_right (not_not.2 ⟨hone, htext⟩)]
      intro hunit
      have hlength := congrArg List.length hunit
      rw [htext, realChars_one] at hlength
      split at hlength <;> exact absurd hlength (by decide)
    · have hone' : y' ≠ 1 := by
        rintro rfl
        exact htext h.text.symm
      rw [if_neg hone', h.text, iff_true_left rfl]
      exact fun hresembles => htext hresembles.2

/-! ## Whole numbers -/

theorem resemblesOne_signed (hy : 0 < y) (negative : Bool) :
    ResemblesOne p (signed negative y) ↔ y ≠ 1 ∧ realChars p y = realChars p 1 := by
  rw [ResemblesOne, Binary.abs_signed hy, realText, realText, String.ofList_inj]

theorem not_resemblesOne_zero (p : Precision) : ¬ ResemblesOne p 0 := by
  rintro ⟨-, htext⟩
  have hzero : realChars p (Binary.abs 0) = ['0'] := if_pos rfl
  rw [realText, realText, String.ofList_inj, hzero, realChars_one] at htext
  split at htext <;> exact absurd htext (by decide)

/-- What the text of a number gives when it is entered. -/
structure Reentry (s : Settings) (depth : Nat) (z v : Number) : Prop where
  run : ∃ o, Operand.compile s.precision.bits depth (z.text s.precision) = .ok o ∧
    o.evaluate.run (.fresh s) = (.ok v, .fresh s)
  text : v.text s.precision = z.text s.precision ↔ ¬ ResemblesOne s.precision z.im

theorem reentry_zero (s : Settings) (depth : Nat) : Reentry s depth 0 0 := by
  have hread : ofNumeral? s.precision.bits (String.ofList ['0']) = some 0 :=
    ofNumeral?_real (d := ⟨false, 0, 0⟩) (by decide) (by decide) _ String.toList_ofList
  have hnumeral : IsNumeral ['0'] := (isNumeral_iff _).1 (by decide)
  have hterm : Term (.fresh s) (.numeral ['0']) _ 0 := term_numeral hnumeral hread
  obtain ⟨e, he, hrun⟩ := hterm.run_signed false depth (by decide)
  exact ⟨⟨e, he, hrun⟩, iff_of_true rfl (not_resemblesOne_zero _)⟩

theorem exists_reentry_real (s : Settings) (depth : Nat) (hx : 0 < x) (negative : Bool)
    (hsize : (text s.precision ⟨signed negative x, 0⟩).utf8ByteSize ≤ Lexed.maxLength) :
    ∃ v, Reentry s depth ⟨signed negative x, 0⟩ v := by
  obtain ⟨x', h⟩ := exists_reread s.precision hx
  obtain ⟨o, hterm⟩ := h.term
  rw [text, chars_real hx] at hsize
  have hbits : (Context.fresh s).bits = s.precision.bits := rfl
  obtain ⟨e, he, hrun⟩ := hterm.run_signed negative depth hsize
  refine ⟨⟨signed negative x', 0⟩, ⟨e, ?_, ?_⟩, ?_⟩
  · rw [text, chars_real hx]
    exact he
  · rw [hrun, hbits, signedValue_real h.fits]
  · rw [text, text, chars_real h.pos, chars_real hx, h.text, iff_true_left rfl]
    exact not_resemblesOne_zero _

theorem exists_reentry_imaginary (s : Settings) (depth : Nat) (hy : 0 < y) (negative : Bool)
    (hsize : (text s.precision ⟨0, signed negative y⟩).utf8ByteSize ≤ Lexed.maxLength) :
    ∃ v, Reentry s depth ⟨0, signed negative y⟩ v := by
  obtain ⟨word, o, y', hchars, hterm, hpos, hfits, hsame⟩ := exists_imaginary_term s hy
  rw [text, chars_imaginary hy, ← hchars] at hsize
  have hbits : (Context.fresh s).bits = s.precision.bits := rfl
  obtain ⟨e, he, hrun⟩ := hterm.run_signed negative depth hsize
  refine ⟨⟨0, signed negative y'⟩, ⟨e, ?_, ?_⟩, ?_⟩
  · rw [text, chars_imaginary hy, ← hchars]
    exact he
  · rw [hrun, hbits, signedValue_imaginary hfits]
  · rw [text, text, chars_imaginary hpos, chars_imaginary hy, resemblesOne_signed hy, ← hsame,
      String.ofList_inj, List.append_cancel_left_eq]

theorem exists_reentry_sum (s : Settings) (depth : Nat) (hx : 0 < x) (hy : 0 < y)
    (negative negative' : Bool)
    (hsize : (text s.precision ⟨signed negative x, signed negative' y⟩).utf8ByteSize ≤
      Lexed.maxLength) :
    ∃ v, Reentry s depth ⟨signed negative x, signed negative' y⟩ v := by
  obtain ⟨x', h⟩ := exists_reread s.precision hx
  obtain ⟨o, hterm⟩ := h.term
  obtain ⟨word', o', y', hchars, hterm', hpos, hfits, hsame⟩ := exists_imaginary_term s hy
  rw [text, chars_sum hx hy, ← hchars] at hsize
  have hbits : (Context.fresh s).bits = s.precision.bits := rfl
  obtain ⟨e, he, hrun⟩ := hterm.run_sum hterm' negative negative' depth hsize
  refine ⟨⟨signed negative x', signed negative' y'⟩, ⟨e, ?_, ?_⟩, ?_⟩
  · rw [text, chars_sum hx hy, ← hchars]
    exact he
  · rw [hrun, hbits, signedValue_real h.fits, sumValue_parts (h.fits.signed negative) hfits]
  · rw [text, text, chars_sum h.pos hpos, chars_sum hx hy, resemblesOne_signed hy, ← hsame, h.text,
      String.ofList_inj, List.append_cancel_left_eq, List.cons_inj_right]

/-- **Entering a number as it is written.** The text of a number, if it is not too long to be read,
is compiled, and evaluates in a fresh context of the same precision.  The value has the same text,
except if the imaginary part is written like one or minus one and is neither: then it is read as
exactly one or minus one, and that is not written. -/
theorem text_after_reentry (s : Settings) (depth : Nat) (z : Number)
    (hsize : (z.text s.precision).utf8ByteSize ≤ Lexed.maxLength) :
    ∃ o v, Operand.compile s.precision.bits depth (z.text s.precision) = .ok o ∧
      o.evaluate.run (.fresh s) = (.ok v, .fresh s) ∧
      (v.text s.precision = z.text s.precision ↔ ¬ ResemblesOne s.precision z.im) := by
  have hreentry : ∃ v, Reentry s depth z v := by
    obtain ⟨re, im⟩ := z
    by_cases hre : re = 0
    · subst hre
      by_cases him : im = 0
      · subst him
        exact ⟨0, reentry_zero s depth⟩
      · obtain ⟨negative, y, hy, rfl⟩ := Binary.exists_signed him
        exact exists_reentry_imaginary s depth hy negative hsize
    · obtain ⟨negative, x, hx, rfl⟩ := Binary.exists_signed hre
      by_cases him : im = 0
      · subst him
        exact exists_reentry_real s depth hx negative hsize
      · obtain ⟨negative', y, hy, rfl⟩ := Binary.exists_signed him
        exact exists_reentry_sum s depth hx hy negative negative' hsize
  obtain ⟨v, ⟨o, hcompile, hrun⟩, htext⟩ := hreentry
  exact ⟨o, v, hcompile, hrun, htext⟩

/-- A third below zero with an imaginary part that is written with a power of ten. -/
theorem text_after_reentry_of_third :
    let z : Number := ⟨Binary.ratio Precision.standard.bits (-1) 3, .ofIntWithPrec (-5) 21⟩
    z.text .standard = "-0.33333333333333333333333333333333-2.384185791015625e-6i" ∧
      ∃ o v, Operand.compile Precision.standard.bits 1000 (z.text .standard) = .ok o ∧
        o.evaluate.run (.fresh .standard) = (.ok v, .fresh .standard) ∧
        v.text .standard = z.text .standard := by
  intro z
  have htext : z.text .standard =
      "-0.33333333333333333333333333333333-2.384185791015625e-6i" := by decide +kernel
  have hunit : ¬ ResemblesOne .standard z.im := by
    unfold ResemblesOne
    decide +kernel
  obtain ⟨o, v, hcompile, hrun, hsame⟩ :=
    text_after_reentry .standard 1000 z (show (z.text .standard).utf8ByteSize ≤ _ by
      rw [htext]
      decide +kernel)
  exact ⟨htext, o, v, hcompile, hrun, hsame.2 hunit⟩

/-- **A coefficient that is rounded to one.** The value of `1/3*3*i` is a little less than the
imaginary unit and is written `1i`.  This text is the imaginary unit, which is written `i`. -/
theorem rounded_unit_after_reentry :
    let z : Number := ⟨0, Binary.mul Precision.standard.bits
      (Binary.ratio Precision.standard.bits 1 3) 3⟩
    ((Session.execute "1/3*3*i").run (.fresh .standard)).2.valueOf? "ans" = some z ∧
      z.text .standard = "1i" ∧
      ∃ o, Operand.compile Precision.standard.bits 1000 "1i" = .ok o ∧
        o.evaluate.run (.fresh .standard) = (.ok .unit, .fresh .standard) ∧
        unit.text .standard = "i" := by
  have hterm : Term (.fresh .standard) (.numeral ['1', 'i']) _ .unit :=
    term_numeral ((isNumeral_iff _).1 (by decide)) (by decide +kernel)
  obtain ⟨o, hcompile, hrun⟩ := hterm.run_signed false 1000 (by decide)
  exact ⟨by decide +kernel, by decide +kernel, o, hcompile, hrun, by decide +kernel⟩

end Number

end Reckoner
