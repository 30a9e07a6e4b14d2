import Reckoner.Proofs.Grammar.Numeral
import Reckoner.Proofs.Number.Rounding

/-!
# The layouts of a number

`Number.Denotes cs q`: the text `cs` is a numeral, with or without the imaginary unit, and is read
as a decimal with the value `q`.  Significant digits are written in four layouts: behind a point
and zeros, before zeros, with the point between them, and with a power of ten.  Each has its parts
(`Number.LaidOut`), and all of them denote the value of the digits (`Number.denotes_plainChars`,
`Number.denotes_scientificChars`).
-/

namespace Reckoner

open Decimal Numeral

namespace Number

/-- The text is a numeral and is read as a decimal with the value. -/
structure Denotes (cs : List Char) (q : ℚ) : Prop where
  numeral : IsNumeral cs
  imaginary : IsNumeral (cs ++ ['i'])
  unit : 'i' ∉ cs
  read : ∃ d : Decimal, Decimal.read? (padPoint cs) = some d ∧ d.negative = false ∧ d.magnitude = q

end Number

/-- The parts of a numeral denote the digits before and after the point, times a power of ten. -/
theorem Numeral.Parts.denotes {whole fraction exponent : List Char} {n : ℤ}
    (h : Parts whole fraction exponent) (hpoint : fraction ≠ ['.'])
    (hn : exponentValue? exponent = some n) :
    Number.Denotes (whole ++ (fraction ++ exponent))
      (natOfDigits (whole ++ fraction.tail) * 10 ^ (n - fraction.tail.length)) where
  numeral := by
    have hnumeral := IsNumeral.of_parts h.digits h.nonempty h.fraction h.exponent (.inl rfl)
    rwa [List.append_nil, List.append_assoc] at hnumeral
  imaginary := by
    have hnumeral := IsNumeral.of_parts h.digits h.nonempty h.fraction h.exponent (.inr rfl)
    rwa [List.append_assoc whole] at hnumeral
  unit := h.unit_not_mem
  read := by
    rw [h.padPoint, Numeral.padFraction, if_neg hpoint]
    exact ⟨_, h.read hn, rfl, rfl⟩

namespace Number

/-! ## Digits -/

theorem areDigits_toDigits (n : ℕ) : AreDigits (Nat.toDigits 10 n) := fun _ hc =>
  Nat.isDigit_of_mem_toDigits (by decide) (by decide) hc

theorem areDigits_replicate (n : ℕ) : AreDigits (List.replicate n '0') := by
  intro c hc
  rw [List.eq_of_mem_replicate hc]
  rfl

theorem areDigits_append {ds es : List Char} (hds : AreDigits ds) (hes : AreDigits es) :
    AreDigits (ds ++ es) := by
  intro c hc
  rcases List.mem_append.1 hc with hc | hc
  · exact hds c hc
  · exact hes c hc

/-- Significant digits as they are written: there is one, and all are digits. -/
structure IsWritten (s : Significant) : Prop where
  digits : AreDigits s.digits
  nonempty : s.digits ≠ []

theorem isWritten_significant {p : ℕ} (hp : 1 ≤ p) {x : Dyadic} (hx : 0 < x.toRat) :
    IsWritten (significant p x) := by
  obtain ⟨m, e, hm, hsignificant⟩ := exists_rounds p hx
  obtain ⟨hlow, hhigh⟩ := hm.bounds hp
  rw [hsignificant]
  constructor
  · intro c hc
    obtain ⟨n, hn⟩ := exists_dropTrailingZeros_append (Nat.toDigits 10 m)
    refine areDigits_toDigits m c ?_
    rw [← hn]
    exact List.mem_append_left _ hc
  · intro hnil
    -- without digits the value would be zero
    have hvalue := Significant.value_ofRounded hp hlow hhigh e
    rw [Significant.value, hnil] at hvalue
    have hpos : 0 < m := lt_of_lt_of_le (by positivity) hlow
    have hzero : (0 : ℚ) < m * 10 ^ (e - p) := by positivity
    rw [← hvalue] at hzero
    exact absurd hzero (by simp [natOfDigits])

theorem value_pos {p : ℕ} (hp : 1 ≤ p) {x : Dyadic} (hx : 0 < x.toRat) :
    0 < (significant p x).value := by
  obtain ⟨m, e, hm, hsignificant⟩ := exists_rounds p hx
  obtain ⟨hlow, hhigh⟩ := hm.bounds hp
  have hpos : 0 < m := lt_of_lt_of_le (by positivity) hlow
  rw [hsignificant, Significant.value_ofRounded hp hlow hhigh e]
  positivity

/-! ## Layouts -/

theorem natOfDigits_zeros_append (n : ℕ) (ds : List Char) :
    natOfDigits (List.replicate n '0' ++ ds) = natOfDigits ds := by
  rw [natOfDigits_append, natOfDigits_replicate, Nat.mul_zero, Nat.zero_add]

/-- An exponent is read as the integer that it is written from. -/
theorem exponentValue?_intChars (n : ℤ) : exponentValue? ('e' :: intChars n) = some n := by
  have hdigits := areDigits_toDigits n.natAbs
  rw [exponentValue?, intChars]
  by_cases hn : n < 0
  · rw [if_pos hn, List.singleton_append, readExponent?,
      hdigits.readExponentDigits?_eq Nat.toDigits_ne_nil, natOfDigits_toDigits]
    show some (-(n.natAbs : ℤ)) = some n
    congr 1
    omega
  · rw [if_neg hn, List.nil_append, hdigits.readExponent?_eq Nat.toDigits_ne_nil,
      natOfDigits_toDigits]
    congr 1
    exact Int.natAbs_of_nonneg (not_lt.1 hn)

theorem isExponent_intChars (n : ℤ) : IsExponent ('e' :: intChars n) := by
  refine .mk (.inl rfl) ?_ (areDigits_toDigits _) Nat.toDigits_ne_nil
  by_cases hn : n < 0
  · exact .inr (.inr (if_pos hn))
  · exact .inl (if_neg hn)

/-- The parts of a text for significant digits: they have the value of the digits, and a fraction
ends like the digits do. -/
structure LaidOut (s : Significant) (whole fraction exponent : List Char) : Prop where
  parts : Parts whole fraction exponent
  last : fraction ≠ [] → fraction.tail.getLast? = s.digits.getLast?
  value : ∃ n, exponentValue? exponent = some n ∧
    (natOfDigits (whole ++ fraction.tail) * 10 ^ (n - fraction.tail.length) : ℚ) = s.value

section Layouts

variable {s : Significant} (h : IsWritten s)

include h

theorem LaidOut.denotes {whole fraction exponent : List Char}
    (hlayout : LaidOut s whole fraction exponent) :
    Denotes (whole ++ (fraction ++ exponent)) s.value := by
  obtain ⟨n, hn, hvalue⟩ := hlayout.value
  have hpoint : fraction ≠ ['.'] := by
    rintro rfl
    exact h.nonempty (List.getLast?_eq_none_iff.1 (hlayout.last (by simp)).symm)
  rw [← hvalue]
  exact hlayout.parts.denotes hpoint hn

theorem laidOut_behind_zeros (hexponent : s.exponent ≤ 0) :
    LaidOut s ['0'] ('.' :: (List.replicate (-s.exponent).toNat '0' ++ s.digits)) [] where
  parts := ⟨areDigits_replicate 1, by simp,
    .inr ⟨_, areDigits_append (areDigits_replicate _) h.digits, rfl⟩, .inl rfl⟩
  last _ := List.getLast?_append_of_ne_nil _ h.nonempty
  value := by
    have hdigits : natOfDigits (['0'] ++ (List.replicate (-s.exponent).toNat '0' ++ s.digits)) =
        natOfDigits s.digits := by
      rw [← natOfDigits_zeros_append ((-s.exponent).toNat + 1) s.digits, List.replicate_succ]
      rfl
    have hplaces : (0 : ℤ) - (List.replicate (-s.exponent).toNat '0' ++ s.digits).length =
        s.exponent - s.digits.length := by
      rw [List.length_append, List.length_replicate]
      omega
    refine ⟨0, rfl, ?_⟩
    rw [List.tail_cons, hdigits, hplaces, Significant.value]

theorem laidOut_before_zeros (hexponent : 0 < s.exponent)
    (hlength : s.digits.length ≤ s.exponent.toNat) :
    LaidOut s (s.digits ++ List.replicate (s.exponent.toNat - s.digits.length) '0') [] [] where
  parts :=
    ⟨areDigits_append h.digits (areDigits_replicate _), by simp [h.nonempty], .inl rfl, .inl rfl⟩
  last hnil := absurd rfl hnil
  value := by
    refine ⟨0, rfl, ?_⟩
    rw [List.tail_nil, List.append_nil, List.length_nil, Nat.cast_zero, sub_zero, zpow_zero,
      mul_one, natOfDigits_append, natOfDigits_replicate, List.length_replicate, Significant.value,
      show s.exponent - s.digits.length = ((s.exponent.toNat - s.digits.length : ℕ) : ℤ) by omega,
      zpow_natCast]
    push_cast
    ring

theorem laidOut_around_point (hexponent : 0 < s.exponent)
    (hlength : ¬ s.digits.length ≤ s.exponent.toNat) :
    LaidOut s (s.digits.take s.exponent.toNat) ('.' :: s.digits.drop s.exponent.toNat) [] where
  parts := by
    refine ⟨fun c hc => h.digits c (List.mem_of_mem_take hc), ?_,
      .inr ⟨_, fun c hc => h.digits c (List.mem_of_mem_drop hc), rfl⟩, .inl rfl⟩
    rw [ne_eq, List.take_eq_nil_iff, not_or]
    exact ⟨by omega, h.nonempty⟩
  last _ := by rw [List.tail_cons, List.getLast?_drop, if_neg hlength]
  value := by
    have hplaces : (0 : ℤ) - (s.digits.drop s.exponent.toNat).length =
        s.exponent - s.digits.length := by
      rw [List.length_drop]
      omega
    refine ⟨0, rfl, ?_⟩
    rw [List.tail_cons, List.take_append_drop, hplaces, Significant.value]

theorem laidOut_scientific {d : Char} {ds : List Char} (hdigits : s.digits = d :: ds) :
    LaidOut s [d] (if ds.isEmpty then [] else '.' :: ds) ('e' :: intChars (s.exponent - 1)) where
  parts := by
    have hall := h.digits
    rw [hdigits] at hall
    obtain ⟨hd, hds⟩ := List.forall_mem_cons.1 hall
    have hfraction : IsFraction (if ds.isEmpty then [] else '.' :: ds) := by
      split
      · exact .inl rfl
      · exact .inr ⟨ds, hds, rfl⟩
    exact ⟨by simpa [AreDigits] using hd, by simp, hfraction, .inr (isExponent_intChars _)⟩
  last hsome := by
    rw [hdigits]
    cases ds with
    | nil => exact absurd rfl hsome
    | cons e es => exact (List.getLast?_cons_cons).symm
  value := by
    have htail : (if ds.isEmpty then [] else '.' :: ds).tail = ds := by
      cases ds <;> rfl
    have hplaces : s.exponent - 1 - ds.length = s.exponent - s.digits.length := by
      rw [hdigits, List.length_cons]
      omega
    have hsplit : [d] ++ ds = s.digits := hdigits.symm
    refine ⟨s.exponent - 1, exponentValue?_intChars _, ?_⟩
    rw [htail, hsplit, hplaces, Significant.value]

theorem exists_laidOut_plainChars :
    ∃ whole fraction, LaidOut s whole fraction [] ∧ plainChars s = whole ++ fraction := by
  unfold plainChars
  split
  · next hexponent => exact ⟨_, _, laidOut_behind_zeros h hexponent, by simp⟩
  · next hexponent =>
    dsimp only
    split
    · next hlength => exact ⟨_, _, laidOut_before_zeros h (not_le.1 hexponent) hlength, by simp⟩
    · next hlength => exact ⟨_, _, laidOut_around_point h (not_le.1 hexponent) hlength, by simp⟩

theorem exists_laidOut_scientificChars :
    ∃ d fraction, s.digits.head? = some d ∧
      LaidOut s [d] fraction ('e' :: intChars (s.exponent - 1)) ∧
      scientificChars s = d :: (fraction ++ 'e' :: intChars (s.exponent - 1)) := by
  obtain ⟨d, ds, hdigits⟩ := List.exists_cons_of_ne_nil h.nonempty
  refine ⟨d, _, by rw [hdigits]; rfl, laidOut_scientific h hdigits, ?_⟩
  unfold scientificChars
  rw [hdigits]
  simp

/-- Both layouts denote the value of the digits. -/
theorem denotes_plainChars : Denotes (plainChars s) s.value := by
  obtain ⟨whole, fraction, hlayout, hchars⟩ := exists_laidOut_plainChars h
  have hdenotes := hlayout.denotes h
  rwa [List.append_nil, ← hchars] at hdenotes

theorem denotes_scientificChars : Denotes (scientificChars s) s.value := by
  obtain ⟨d, fraction, -, hlayout, hchars⟩ := exists_laidOut_scientificChars h
  rw [hchars]
  exact hlayout.denotes h

end Layouts

end Number

end Reckoner
