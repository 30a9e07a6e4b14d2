import Mathlib.Data.Int.Log
import Mathlib.Data.Rat.Floor
import Reckoner.Proofs.Number.Reentry

/-!
# What is written of a real number

1. `Numeral.DecimalValue cs q`: a numeral without the imaginary unit stands for the rational `q`.
   It is read as a decimal with this value (`Numeral.DecimalValue.read`).
2. The written value of a number is the number rounded to the shown digits, halves away from zero
   (`Decimal.roundTo`).  It lies below the power of ten of its exponent and not below the one before
   (`Decimal.value_bounds`), which decides between the notations.
3. The text of a number that is not zero stands for the rounded number and wastes no zeros, and a
   numeral of no more digits than are shown comes back as its own value
   (`Number.realText_is_rounded`).
-/

namespace Reckoner

open Decimal Numeral

/-! ## Rounding -/

namespace Decimal

/-- A rational rounded to `p` significant digits, halves away from zero. -/
def roundTo (p : ℕ) (q : ℚ) : ℚ :=
  let unit : ℚ := 10 ^ (Int.log 10 |q| + 1 - p)
  if q < 0 then -(round (|q| / unit) * unit) else round (|q| / unit) * unit

/-- The rational has at most `p` significant digits. -/
def HasDigits (p : ℕ) (q : ℚ) : Prop := ∃ (m : ℕ) (k : ℤ), m < 10 ^ p ∧ q = m * 10 ^ k

variable {p m : ℕ} {q : ℚ} {e : ℤ}

theorem roundTo_neg (hq : 0 < q) : roundTo p (-q) = -roundTo p q := by
  unfold roundTo
  dsimp only
  rw [abs_neg, if_pos (by linarith), if_neg (by linarith)]

theorem Rounds.log_eq (h : Rounds p q m e) : Int.log 10 q + 1 = e := by
  have hle : e - 1 ≤ Int.log 10 q :=
    (Int.zpow_le_iff_le_log (by decide) h.pos).1 (by exact_mod_cast h.low)
  have hlt : Int.log 10 q < e :=
    (Int.lt_zpow_iff_log_lt (by decide) h.pos).1 (by exact_mod_cast h.high)
  omega

theorem Rounds.value_eq (h : Rounds p q m e) : (m * 10 ^ (e - p) : ℚ) = roundTo p q := by
  have hunit : q / 10 ^ (e - p) = q * 10 ^ (p - e) := by
    rw [div_eq_mul_inv, ← zpow_neg, neg_sub]
  have hround : round (q / 10 ^ (e - p)) = m := by
    rw [round_eq, Int.floor_eq_iff, hunit, Int.cast_natCast]
    exact ⟨h.le, h.lt⟩
  unfold roundTo
  dsimp only
  rw [abs_of_pos h.pos, if_neg (not_lt.2 h.pos.le), h.log_eq, hround, Int.cast_natCast]

theorem significant_value (hp : 1 ≤ p) {x : Dyadic} (hx : 0 < x.toRat) :
    (significant p x).value = roundTo p x.toRat := by
  obtain ⟨m, e, hm, hsignificant⟩ := exists_rounds p hx
  obtain ⟨hlow, hhigh⟩ := hm.bounds hp
  rw [hsignificant, Significant.value_ofRounded hp hlow hhigh, hm.value_eq]

/-- The value lies below the power of ten of the exponent, and not below the power before. -/
theorem value_bounds (hp : 1 ≤ p) {x : Dyadic} (hx : 0 < x.toRat) :
    (10 : ℚ) ^ ((significant p x).exponent - 1) ≤ (significant p x).value ∧
      (significant p x).value < 10 ^ (significant p x).exponent := by
  obtain ⟨m, e, hm, hsignificant⟩ := exists_rounds p hx
  obtain ⟨hlow, hhigh⟩ := hm.bounds hp
  rw [hsignificant, Significant.value_ofRounded hp hlow hhigh]
  have hunit : (0 : ℚ) < 10 ^ (e - p) := by positivity
  have hpower : ∀ k : ℕ, ((10 ^ k : ℕ) * 10 ^ (e - p) : ℚ) = 10 ^ (k + (e - p)) := by
    intro k
    rw [zpow_add₀ (by norm_num), zpow_natCast]
    push_cast
    rfl
  have hbelow : ((10 ^ (p - 1) : ℕ) * 10 ^ (e - p) : ℚ) ≤ m * 10 ^ (e - p) := by
    gcongr
  show (10 : ℚ) ^ ((if 10 ^ p ≤ m then e + 1 else e) - 1) ≤ _ ∧
    _ < (10 : ℚ) ^ (if 10 ^ p ≤ m then e + 1 else e)
  split
  · next hfull =>
    rw [le_antisymm hhigh hfull, hpower, add_sub_cancel_right, show (p : ℤ) + (e - p) = e by omega]
    exact ⟨le_rfl, zpow_lt_zpow_right₀ (by norm_num) (by omega)⟩
  · next hless =>
    rw [hpower, show ((p - 1 : ℕ) : ℤ) + (e - p) = e - 1 by omega] at hbelow
    refine ⟨hbelow, ?_⟩
    calc (m * 10 ^ (e - p) : ℚ) < (10 ^ p : ℕ) * 10 ^ (e - p) := by
          gcongr
          exact not_le.1 hless
      _ = 10 ^ e := by rw [hpower, show (p : ℤ) + (e - p) = e by omega]

/-- A rational of at most `p` digits is its own rounding. -/
theorem HasDigits.exists_rounds (h : HasDigits p q) (hq : 0 < q) :
    ∃ m e, Rounds p q m e ∧ (m * 10 ^ (e - p) : ℚ) = q := by
  obtain ⟨m, k, hm, rfl⟩ := h
  have hten : (1 : ℚ) < 10 := by norm_num
  obtain ⟨e, he⟩ : ∃ e, e = Int.log 10 ((m : ℚ) * 10 ^ k) + 1 := ⟨_, rfl⟩
  have hlow : (10 : ℚ) ^ (e - 1) ≤ m * 10 ^ k := by
    rw [he, add_sub_cancel_right]
    exact_mod_cast Int.zpow_log_le_self (b := 10) (by decide) hq
  have hhigh : (m * 10 ^ k : ℚ) < 10 ^ e := by
    rw [he]
    exact_mod_cast Int.lt_zpow_succ_log_self (b := 10) (by decide) ((m : ℚ) * 10 ^ k)
  -- the last of `p` digits is not worth more than the last digit of `m`
  have hplaces : e ≤ p + k := by
    have hlt : (10 : ℚ) ^ (e - 1) < 10 ^ ((p : ℤ) + k) := by
      refine hlow.trans_lt ?_
      rw [zpow_add₀ (by norm_num), zpow_natCast]
      gcongr
      exact_mod_cast hm
    have := (zpow_lt_zpow_iff_right₀ hten).1 hlt
    omega
  obtain ⟨j, hj⟩ := Int.eq_ofNat_of_zero_le (sub_nonneg.2 hplaces)
  have hunits : (m * 10 ^ k * 10 ^ (p - e) : ℚ) = (m * 10 ^ j : ℕ) := by
    rw [mul_assoc, ← zpow_add₀ (by norm_num), show k + (p - e) = (j : ℤ) by omega, zpow_natCast]
    push_cast
    rfl
  refine ⟨m * 10 ^ j, e, ⟨hlow, hhigh, ?_, ?_⟩, ?_⟩
  · rw [hunits]
    linarith
  · rw [hunits]
    linarith
  · rw [← hunits, mul_assoc, ← zpow_add₀ (by norm_num), show (p : ℤ) - e + (e - p) = 0 by omega,
      zpow_zero, mul_one]

/-- What is read near a rational of at most `p` digits is written with its value. -/
theorem HasDigits.value_eq_of_near (h : HasDigits p q) (hp : 1 ≤ p) {w : ℕ}
    (hw : 2 * 10 ^ (p + 8) ≤ 2 ^ w) {y : Dyadic} (hy : Binary.Near w q y) :
    (significant p y).value = q := by
  obtain ⟨m, e, hm, hvalue⟩ := h.exists_rounds (hy.pos.trans_le hy.le)
  obtain ⟨m', e', hm', hsignificant⟩ := Decimal.exists_rounds p hy.pos
  obtain ⟨hlow, hhigh⟩ := hm'.bounds hp
  rw [hsignificant, Significant.value_ofRounded hp hlow hhigh,
    hm.stable hp hm' hw (by rw [hvalue]; exact hy.le) (by rw [hvalue]; exact hy.close), hvalue]

end Decimal

/-! ## The value of a numeral -/

namespace Numeral

/-- An exponent, or none, with its value: what follows the mark is an integer in decimal digits. -/
inductive ExponentValue : List Char → ℤ → Prop where
  | absent : ExponentValue [] 0
  | unsigned {mark : Char} {ds : List Char} (isMark : mark = 'e' ∨ mark = 'E')
      (areDigits : AreDigits ds) (nonempty : ds ≠ []) :
      ExponentValue (mark :: ds) (natOfDigits ds)
  | plus {mark : Char} {ds : List Char} (isMark : mark = 'e' ∨ mark = 'E')
      (areDigits : AreDigits ds) (nonempty : ds ≠ []) :
      ExponentValue (mark :: '+' :: ds) (natOfDigits ds)
  | minus {mark : Char} {ds : List Char} (isMark : mark = 'e' ∨ mark = 'E')
      (areDigits : AreDigits ds) (nonempty : ds ≠ []) :
      ExponentValue (mark :: '-' :: ds) (-natOfDigits ds)

/-- A numeral without the imaginary unit, with its value: the digits before and after the point, as
many places lower as there are digits after it, times the power of ten. -/
inductive DecimalValue : List Char → ℚ → Prop where
  | mk {whole fraction exponent : List Char} {n : ℤ} (areDigits : AreDigits whole)
      (nonempty : whole ≠ []) (isFraction : IsFraction fraction)
      (hasExponent : ExponentValue exponent n) :
      DecimalValue (whole ++ (fraction ++ exponent))
        (natOfDigits (whole ++ fraction.tail) / 10 ^ fraction.tail.length * 10 ^ n)

variable {exponent cs : List Char} {n : ℤ} {q : ℚ}

theorem ExponentValue.isExponent (h : ExponentValue exponent n) :
    exponent = [] ∨ IsExponent exponent := by
  cases h with
  | absent => exact .inl rfl
  | unsigned hmark hdigits hne => exact .inr (.mk hmark (.inl rfl) hdigits hne)
  | plus hmark hdigits hne => exact .inr (.mk hmark (.inr (.inl rfl)) hdigits hne)
  | minus hmark hdigits hne => exact .inr (.mk hmark (.inr (.inr rfl)) hdigits hne)

theorem ExponentValue.read (h : ExponentValue exponent n) : exponentValue? exponent = some n := by
  cases h with
  | absent => rfl
  | unsigned hmark hdigits hne => exact hdigits.readExponent?_eq hne
  | plus hmark hdigits hne =>
    rw [exponentValue?, readExponent?, hdigits.readExponentDigits?_eq hne]
    rfl
  | minus hmark hdigits hne =>
    rw [exponentValue?, readExponent?, hdigits.readExponentDigits?_eq hne]
    rfl

theorem exists_exponentValue (h : exponent = [] ∨ IsExponent exponent) :
    ∃ n, ExponentValue exponent n := by
  rcases h with rfl | ⟨hmark, rfl | rfl | rfl, hdigits, hne⟩
  · exact ⟨0, .absent⟩
  · exact ⟨_, .unsigned hmark hdigits hne⟩
  · exact ⟨_, .plus hmark hdigits hne⟩
  · exact ⟨_, .minus hmark hdigits hne⟩

theorem DecimalValue.isNumeral (h : DecimalValue cs q) : IsNumeral cs := by
  obtain ⟨hwhole, hne, hfraction, hexponent⟩ := h
  have hnumeral := IsNumeral.of_parts hwhole hne hfraction hexponent.isExponent (.inl rfl)
  rwa [List.append_nil, List.append_assoc] at hnumeral

theorem DecimalValue.not_minus : ¬ DecimalValue ('-' :: cs) q := by
  intro h
  generalize hminus : '-' :: cs = text at h
  obtain ⟨hwhole, hne, -, -⟩ := h
  rename_i whole _ _ _
  cases whole with
  | nil => exact hne rfl
  | cons c ds =>
    cases hminus
    exact absurd (hwhole '-' List.mem_cons_self) (by decide)

theorem DecimalValue.unit_not_mem (h : DecimalValue cs q) : 'i' ∉ cs := by
  obtain ⟨hwhole, hne, hfraction, hexponent⟩ := h
  exact Parts.unit_not_mem ⟨hwhole, hne, hfraction, hexponent.isExponent⟩

/-- Places behind the point count against the power of ten. -/
theorem mul_zpow_sub_natCast (m places : ℕ) (n : ℤ) :
    (m * 10 ^ (n - places) : ℚ) = m / 10 ^ places * 10 ^ n := by
  rw [zpow_sub₀ (by norm_num), zpow_natCast]
  ring

theorem DecimalValue.read (h : DecimalValue cs q) :
    ∃ d : Decimal, Decimal.read? (Number.padPoint cs) = some d ∧ d.negative = false ∧
      d.magnitude = q := by
  obtain ⟨hwhole, hne, hfraction, hexponent⟩ := h
  rename_i whole fraction exponent n
  have hparts : Parts whole fraction exponent := ⟨hwhole, hne, hfraction, hexponent.isExponent⟩
  rw [hparts.padPoint, hparts.padFraction.read hexponent.read]
  refine ⟨_, rfl, rfl, ?_⟩
  unfold Decimal.magnitude
  dsimp only
  rw [mul_zpow_sub_natCast]
  unfold Numeral.padFraction
  split
  · next hpoint =>
    -- the zero behind a bare point is one more digit and one more place
    subst hpoint
    simp only [List.tail_cons, List.append_nil, List.length_nil, List.length_singleton, pow_zero,
      pow_one, div_one, natOfDigits_append]
    have hzero : natOfDigits ['0'] = 0 := rfl
    rw [hzero]
    push_cast
    ring
  · rfl

theorem DecimalValue.unique {r : ℚ} (h : DecimalValue cs q) (h' : DecimalValue cs r) : q = r := by
  obtain ⟨d, hread, -, hvalue⟩ := h.read
  obtain ⟨d', hread', -, hvalue'⟩ := h'.read
  rw [hread, Option.some.injEq] at hread'
  rw [← hvalue, ← hvalue', hread']

theorem existsUnique_decimalValue (h : IsNumeral cs) (hunit : 'i' ∉ cs) :
    ∃! q, DecimalValue cs q := by
  obtain ⟨whole, fraction, exponent, unit, hwhole, hne, hfraction, hexponent, rfl | rfl, rfl⟩ :=
    h.parts
  · obtain ⟨n, hn⟩ := exists_exponentValue hexponent
    have hvalue := DecimalValue.mk hwhole hne hfraction hn
    rw [List.append_nil]
    exact ⟨_, hvalue, fun r hr => hr.unique hvalue⟩
  · exact absurd (by simp) hunit

end Numeral

/-! ## Texts of real numbers -/

namespace Number

open Grammar

/-- A text of a real number with its value: a numeral, or a minus and a numeral. -/
inductive RealValue : List Char → ℚ → Prop where
  | unsigned {cs : List Char} {q : ℚ} (value : DecimalValue cs q) : RealValue cs q
  | minus {cs : List Char} {q : ℚ} (value : DecimalValue cs q) : RealValue ('-' :: cs) (-q)

/-- Plain notation: digits with at most one point, and no power of ten. -/
def IsPlainText (cs : List Char) : Prop :=
  ∃ negative whole fraction, AreDigits whole ∧ whole ≠ [] ∧ IsFraction fraction ∧
    cs = signChars negative ++ (whole ++ fraction)

/-- Scientific notation: one digit that is not zero before the point, and an integer as the
exponent of the power of ten. -/
def IsScientificText (cs : List Char) : Prop :=
  ∃ negative d fraction n, d.isDigit = true ∧ d ≠ '0' ∧ IsFraction fraction ∧
    cs = signChars negative ++ d :: (fraction ++ 'e' :: intChars n)

/-- No zero is wasted: digits follow a point, and the last of them is not zero. -/
def IsTightText (cs : List Char) : Prop :=
  ∀ before after, cs = before ++ '.' :: after →
    ∃ d, (after.takeWhile Char.isDigit).getLast? = some d ∧ d ≠ '0'

variable {p : Precision} {y : Dyadic}

/-! ### Digits -/

theorem exists_getLast?_digits {n : ℕ} (hn : 1 ≤ n) (hy : 0 < y.toRat) :
    ∃ d, (significant n y).digits.getLast? = some d ∧ d ≠ '0' := by
  obtain ⟨m, e, -, hsignificant⟩ := exists_rounds n hy
  have hne := (isWritten_significant hn hy).nonempty
  rw [hsignificant] at hne ⊢
  have hdrop := List.head?_dropWhile_not (fun c => c == '0') (Nat.toDigits 10 m).reverse
  show ∃ d, (dropTrailingZeros (Nat.toDigits 10 m)).getLast? = some d ∧ d ≠ '0'
  change dropTrailingZeros (Nat.toDigits 10 m) ≠ [] at hne
  unfold dropTrailingZeros at hne ⊢
  rw [List.getLast?_reverse]
  cases hhead : ((Nat.toDigits 10 m).reverse.dropWhile (fun c => c == '0')).head? with
  | none =>
    rw [List.head?_eq_none_iff] at hhead
    exact absurd (by rw [hhead]; rfl) hne
  | some d =>
    rw [hhead] at hdrop
    exact ⟨d, rfl, by simpa using hdrop⟩

theorem natOfDigits_lt {ds : List Char} (h : AreDigits ds) : natOfDigits ds < 10 ^ ds.length := by
  induction ds with
  | nil => exact Nat.one_pos
  | cons d ds ih =>
    obtain ⟨hd, hds⟩ := List.forall_mem_cons.1 h
    have hfirst : natOfDigits [d] ≤ 9 := by
      have hrange := Char.isDigit_iff_toNat.1 hd
      have hzero : '0'.toNat = 48 := rfl
      have hnine : '9'.toNat = 57 := rfl
      show 10 * 0 + (d.toNat - '0'.toNat) ≤ 9
      omega
    have hrest := ih hds
    rw [← List.singleton_append, natOfDigits_append, List.singleton_append, List.length_cons,
      pow_succ]
    nlinarith

theorem head?_digits_ne_zero {n : ℕ} (hn : 1 ≤ n) (hy : 0 < y.toRat) :
    (significant n y).digits.head? ≠ some '0' := by
  intro hhead
  obtain ⟨ds, hdigits⟩ := List.head?_eq_some_iff.1 hhead
  have hwritten := (isWritten_significant hn hy).digits
  have hvalue := (value_bounds hn hy).1
  rw [hdigits] at hwritten
  have hlt := natOfDigits_lt (List.forall_mem_cons.1 hwritten).2
  have hzero : natOfDigits ('0' :: ds) = natOfDigits ds := natOfDigits_zeros_append 1 ds
  rw [Significant.value, hdigits, hzero, List.length_cons] at hvalue
  generalize (significant n y).exponent = e at hvalue
  have hsmall : (natOfDigits ds * 10 ^ (e - (ds.length + 1 : ℕ)) : ℚ) < 10 ^ (e - 1) := by
    calc (natOfDigits ds * 10 ^ (e - (ds.length + 1 : ℕ)) : ℚ)
        < (10 ^ ds.length : ℕ) * 10 ^ (e - (ds.length + 1 : ℕ)) := by gcongr
      _ = 10 ^ (e - 1) := by
        push_cast
        rw [← zpow_natCast, ← zpow_add₀ (by norm_num)]
        congr 1
        omega
  exact absurd hvalue (not_le.2 hsmall)

/-! ### Notations -/

theorem LaidOut.decimalValue {s : Significant} {whole fraction exponent : List Char}
    (h : LaidOut s whole fraction exponent) :
    DecimalValue (whole ++ (fraction ++ exponent)) s.value := by
  obtain ⟨n, hn, hvalue⟩ := h.value
  obtain ⟨n', hn'⟩ := exists_exponentValue h.parts.exponent
  rw [hn'.read, Option.some.injEq] at hn
  rw [← hvalue, mul_zpow_sub_natCast, ← hn]
  exact .mk h.parts.digits h.parts.nonempty h.parts.fraction hn'

/-- A text has at most one point, and behind it stand the last digits. -/
theorem LaidOut.isTightText {s : Significant} {whole fraction exponent : List Char}
    (h : LaidOut s whole fraction exponent) {d : Char} (hlast : s.digits.getLast? = some d)
    (hd : d ≠ '0') (negative : Bool) :
    IsTightText (signChars negative ++ (whole ++ (fraction ++ exponent))) := by
  intro before after heq
  obtain ⟨hpoint, hstop⟩ := h.parts.exponent_stop
  have hfront : '.' ∉ signChars negative ++ whole := by
    rw [List.mem_append, not_or]
    exact ⟨by cases negative <;> decide, h.parts.digits.point_not_mem⟩
  rw [← List.append_assoc] at heq
  rcases h.parts.fraction with rfl | ⟨ds, hds, rfl⟩
  · have hmem : '.' ∈ before ++ '.' :: after := by simp
    rw [← heq, List.nil_append, List.mem_append] at hmem
    exact absurd hmem (not_or.2 ⟨hfront, hpoint⟩)
  · have hback : '.' ∉ ds ++ exponent := by
      rw [List.mem_append, not_or]
      exact ⟨hds.point_not_mem, hpoint⟩
    rw [List.cons_append] at heq
    obtain ⟨-, -, rfl⟩ := (List.append_cons_inj_of_notMem hfront hback).1 heq
    have hdigits := h.last (by simp)
    rw [List.tail_cons, hlast] at hdigits
    rw [(takeWhile_append_of_stop ds hstop).1, hds.takeWhile_eq]
    exact ⟨d, hdigits, hd⟩

/-- A text of the number `r`, as it is written under a precision. -/
structure IsTextOf (p : Precision) (r : ℚ) (cs : List Char) : Prop where
  value : ∀ q, RealValue cs q ↔ q = r
  tight : IsTightText cs
  plain : IsPlainText cs ↔ p ≠ .auto ∧ (10 : ℚ) ^ (-4 : ℤ) ≤ |r| ∧ |r| < 10 ^ (6 : ℤ)
  scientific : ¬ IsPlainText cs → IsScientificText cs

/-- Which notation is chosen is decided by the written value. -/
theorem isPlain_iff (p : Precision) {e : ℤ} {r : ℚ} (hlow : (10 : ℚ) ^ (e - 1) ≤ r)
    (hhigh : r < 10 ^ e) :
    isPlain p e = true ↔ p ≠ .auto ∧ (10 : ℚ) ^ (-4 : ℤ) ≤ r ∧ r < 10 ^ (6 : ℤ) := by
  have hten : (1 : ℚ) < 10 := by norm_num
  have hleast : plainLeast ≤ e ↔ (10 : ℚ) ^ (-4 : ℤ) ≤ r := by
    constructor
    · intro he
      exact (zpow_le_zpow_right₀ hten.le (by unfold plainLeast at he; omega)).trans hlow
    · intro hr
      have := (zpow_lt_zpow_iff_right₀ hten).1 (hr.trans_lt hhigh)
      unfold plainLeast
      omega
  have hgreatest : e ≤ plainGreatest ↔ r < 10 ^ (6 : ℤ) := by
    constructor
    · intro he
      exact hhigh.trans_le (zpow_le_zpow_right₀ hten.le (by unfold plainGreatest at he; omega))
    · intro hr
      have := (zpow_lt_zpow_iff_right₀ hten).1 (hlow.trans_lt hr)
      unfold plainGreatest
      omega
  unfold isPlain
  rw [Bool.and_eq_true, Bool.and_eq_true, bne_iff_ne, decide_eq_true_eq, decide_eq_true_eq, hleast,
    hgreatest, and_assoc]

theorem IsScientificText.not_isPlainText {cs : List Char} (h : IsScientificText cs) :
    ¬IsPlainText cs := by
  obtain ⟨negative, d, fraction, n, -, -, -, rfl⟩ := h
  rintro ⟨negative', whole, fraction', hwhole, -, hfraction, heq⟩
  have hmem : 'e' ∈ signChars negative ++ d :: (fraction ++ 'e' :: intChars n) := by simp
  rw [heq, List.mem_append, List.mem_append] at hmem
  rcases hmem with hmem | hmem | hmem
  · revert hmem
    cases negative' <;> decide
  · exact absurd (hwhole _ hmem) (by decide)
  · rcases hfraction with rfl | ⟨ds, hds, rfl⟩
    · cases hmem
    · rcases List.mem_cons.1 hmem with hpoint | hmem
      · exact absurd hpoint (by decide)
      · exact absurd (hds _ hmem) (by decide)

/-! ### Texts of positive numbers -/

/-- The text of a positive number has the parts of its digits, and the notation that is chosen. -/
theorem exists_laidOut_realChars (p : Precision) (hy : 0 < y) (negative : Bool) :
    ∃ whole fraction exponent, LaidOut (significant p.shown y) whole fraction exponent ∧
      realChars p y = whole ++ (fraction ++ exponent) ∧
      if isPlain p (significant p.shown y).exponent
        then IsPlainText (signChars negative ++ realChars p y)
        else IsScientificText (signChars negative ++ realChars p y) := by
  have hpos := Binary.toRat_pos_iff.2 hy
  have hwritten := isWritten_significant p.shown_pos hpos
  rw [realChars_of_pos hy]
  split
  · obtain ⟨whole, fraction, hlayout, hchars⟩ := exists_laidOut_plainChars hwritten
    refine ⟨whole, fraction, [], hlayout, by rwa [List.append_nil], negative, whole, fraction,
      hlayout.parts.digits, hlayout.parts.nonempty, hlayout.parts.fraction, by rw [hchars]⟩
  · obtain ⟨d, fraction, hhead, hlayout, hchars⟩ := exists_laidOut_scientificChars hwritten
    refine ⟨[d], fraction, _, hlayout, hchars, negative, d, fraction, _,
      hlayout.parts.digits d List.mem_cons_self, ?_, hlayout.parts.fraction, by rw [hchars]⟩
    rintro rfl
    exact head?_digits_ne_zero p.shown_pos hpos hhead

/-! ### Signs -/

theorem RealValue.signChars {cs : List Char} {q : ℚ} (h : DecimalValue cs q) (negative : Bool) :
    RealValue (signChars negative ++ cs) (if negative then -q else q) := by
  cases negative with
  | false => exact .unsigned h
  | true => exact .minus h

theorem RealValue.unique {cs : List Char} {q r : ℚ} (h : RealValue cs q) (h' : RealValue cs r) :
    q = r := by
  cases h with
  | unsigned hvalue =>
    cases h' with
    | unsigned hvalue' => exact hvalue.unique hvalue'
    | minus hvalue' => exact absurd hvalue DecimalValue.not_minus
  | minus hvalue =>
    cases h' with
    | unsigned hvalue' => exact absurd hvalue' DecimalValue.not_minus
    | minus hvalue' => rw [hvalue.unique hvalue']

theorem roundTo_signed {n : ℕ} (hy : 0 < y) (negative : Bool) :
    roundTo n (Binary.signed negative y).toRat =
      if negative then -roundTo n y.toRat else roundTo n y.toRat := by
  cases negative with
  | false => rfl
  | true =>
    show roundTo n (-y).toRat = -roundTo n y.toRat
    rw [Dyadic.toRat_neg, roundTo_neg (Binary.toRat_pos_iff.2 hy)]

theorem abs_ite_neg (negative : Bool) {q : ℚ} (hq : 0 < q) : |if negative then -q else q| = q := by
  cases negative with
  | false => exact abs_of_pos hq
  | true => exact (abs_neg q).trans (abs_of_pos hq)

/-- A number that is not zero is written as its rounding. -/
theorem isTextOf_realText (p : Precision) {v : Dyadic} (hv : v ≠ 0) :
    IsTextOf p (roundTo p.shown v.toRat) (realText p v).toList := by
  obtain ⟨negative, y, hy, rfl⟩ := Binary.exists_signed hv
  have hpos := Binary.toRat_pos_iff.2 hy
  obtain ⟨whole, fraction, exponent, hlayout, hchars, hnotation⟩ :=
    exists_laidOut_realChars p hy negative
  obtain ⟨d, hlast, hd⟩ := exists_getLast?_digits p.shown_pos hpos
  obtain ⟨hlow, hhigh⟩ := value_bounds p.shown_pos hpos
  have hvalue := RealValue.signChars hlayout.decimalValue negative
  have hchoice := isPlain_iff p hlow hhigh
  rw [← abs_ite_neg negative (value_pos p.shown_pos hpos)] at hchoice
  rw [significant_value p.shown_pos hpos, ← roundTo_signed hy] at hvalue hchoice
  rw [realText, String.toList_ofList, realChars_signed hy]
  refine ⟨fun q => ?_, ?_, ?_, ?_⟩
  · rw [hchars]
    exact ⟨fun hq => hq.unique hvalue, fun hq => hq ▸ hvalue⟩
  · rw [hchars]
    exact hlayout.isTightText hlast hd negative
  · rw [← hchoice]
    split at hnotation
    · next hplain => exact iff_of_true hnotation hplain
    · next hplain => exact iff_of_false hnotation.not_isPlainText hplain
  · intro hnot
    split at hnotation
    · exact absurd hnotation hnot
    · exact hnotation

/-! ### Numerals -/

/-- What is read near a rational of few digits is written with its value. -/
theorem realText_of_near (p : Precision) {q : ℚ} (hq : HasDigits p.shown q)
    (hnear : Binary.Near p.bits q y) : RealValue (realText p y).toList q := by
  have hy := Binary.toRat_pos_iff.1 hnear.pos
  obtain ⟨whole, fraction, exponent, hlayout, hchars, -⟩ := exists_laidOut_realChars p hy false
  have hvalue := hlayout.decimalValue
  rw [hq.value_eq_of_near p.shown_pos p.ten_pow_le_two_pow_bits hnear, ← hchars] at hvalue
  rw [realText, String.toList_ofList]
  exact .unsigned hvalue

/-- A numeral of few digits is written with its value. -/
theorem exists_realText_of_decimalValue (p : Precision) {t : String} {q : ℚ}
    (ht : DecimalValue t.toList q) (hq : HasDigits p.shown q) :
    ∃ x, ofNumeral p.bits t = .ok (.ofReal x) ∧ RealValue (realText p x).toList q := by
  obtain ⟨d, hread, hsign, rfl⟩ := ht.read
  refine ⟨d.toDyadic p.bits, ?_, ?_⟩
  · unfold ofNumeral
    rw [ofNumeral?_real ht.unit_not_mem hread _ rfl]
    rfl
  · by_cases hd : d.mantissa = 0
    · have hdigit : DecimalValue ['0'] 0 := by
        have hvalue := DecimalValue.mk (areDigits_replicate 1) (by simp) (.inl rfl) .absent
        simpa [natOfDigits] using hvalue
      have hchars : realChars p 0 = ['0'] := if_pos rfl
      rw [Decimal.toDyadic_eq_zero _ hd, Decimal.magnitude, hd, Nat.cast_zero, zero_mul, realText,
        String.toList_ofList, hchars]
      exact .unsigned hdigit
    · exact realText_of_near p hq (Decimal.near_toDyadic p.bits_pos hsign hd)

/-- **A number is written as its rounding, and a numeral comes back.** -/
theorem realText_is_rounded (p : Precision) :
    (∀ v : Dyadic, v ≠ 0 → IsTextOf p (roundTo p.shown v.toRat) (realText p v).toList) ∧
      (∀ t : String, IsNumeral t.toList → 'i' ∉ t.toList → ∃! q, DecimalValue t.toList q) ∧
      ∀ (t : String) (q : ℚ), DecimalValue t.toList q → HasDigits p.shown q →
        ∃ x, ofNumeral p.bits t = .ok (.ofReal x) ∧
          ∀ r, RealValue (realText p x).toList r ↔ r = q := by
  refine ⟨fun v hv => isTextOf_realText p hv,
    fun t ht hunit => existsUnique_decimalValue ht hunit, fun t q ht hq => ?_⟩
  obtain ⟨x, hread, hvalue⟩ := exists_realText_of_decimalValue p ht hq
  exact ⟨x, hread, fun r => ⟨fun hr => hr.unique hvalue, fun hr => hr ▸ hvalue⟩⟩

/-- Half a unit below a million the fifth digit carries into the next notation, and a numeral with
a power of ten comes back without one. -/
theorem realText_is_rounded_below_a_million :
    let p : Precision := .digits 5 (by decide)
    let v : Dyadic := .ofIntWithPrec 1999999 1
    IsTextOf p 1000000 (realText p v).toList ∧ realText p v = "1e6" ∧
      (∃! q, DecimalValue "12.50e-3".toList q) ∧
      ∃ x, ofNumeral p.bits "12.50e-3" = .ok (.ofReal x) ∧
        (∀ r, RealValue (realText p x).toList r ↔ r = 1 / 80) ∧ realText p x = "0.0125" := by
  intro p v
  obtain ⟨hwritten, hvalued, hreread⟩ := realText_is_rounded p
  have hvalue : DecimalValue "12.50e-3".toList (1 / 80) := by
    have hmantissa : natOfDigits ['1', '2', '5', '0'] = 1250 := by decide
    have hexponent : natOfDigits ['3'] = 3 := by decide
    have hq : (1 / 80 : ℚ) =
        natOfDigits ['1', '2', '5', '0'] / 10 ^ 2 * 10 ^ (-(natOfDigits ['3'] : ℤ)) := by
      rw [hmantissa, hexponent]
      norm_num
    rw [hq]
    show DecimalValue (['1', '2'] ++ (['.', '5', '0'] ++ 'e' :: '-' :: ['3'])) _
    exact .mk (by decide) (by decide) (.inr ⟨_, by decide, rfl⟩)
      (.minus (.inl rfl) (by decide) (by decide))
  have hdigits : HasDigits p.shown (1 / 80) := ⟨125, -4, by decide, by norm_num⟩
  have hround : roundTo p.shown v.toRat = 1000000 := by decide +kernel
  have htext : (ofNumeral p.bits "12.50e-3").map (text p) = .ok "0.0125" := by decide +kernel
  obtain ⟨x, hread, hvalues⟩ := hreread "12.50e-3" (1 / 80) hvalue hdigits
  rw [hread] at htext
  exact ⟨hround ▸ hwritten v (by decide), by decide +kernel,
    hvalued "12.50e-3" hvalue.isNumeral hvalue.unit_not_mem, x, hread, hvalues,
    Except.ok.inj htext⟩

end Number

end Reckoner
