import Reckoner.Decimal.Rounding
import Reckoner.Precision
import Reckoner.Proofs.Number.Truncation

/-!
# Rounding to significant digits

`Decimal.Rounds p q m e`: a positive rational `q` lies between `10 ^ (e - 1)` and `10 ^ e`, and
`m` is `q` in units of `10 ^ (e - p)`, rounded.

1. What is written is determined by such `m` and `e` (`Decimal.exists_rounds`), and it has the value
   `m * 10 ^ (e - p)` (`Decimal.Significant.value_ofRounded`).
2. A rational that is a little less than a rounded one is rounded to the same value
   (`Decimal.Rounds.stable`), and equal values are written with the same digits and exponent
   (`Decimal.Significant.ofRounded_congr`).
-/

namespace Reckoner

namespace Decimal

/-! ## Counting digits -/

theorem digitCountFrom_spec {n fuel k : ℕ} (hk : 1 ≤ k) (hlow : 10 ^ (k - 1) ≤ n)
    (hfuel : n < 10 ^ (k + fuel)) :
    10 ^ (digitCountFrom n fuel k (10 ^ k) - 1) ≤ n ∧ n < 10 ^ digitCountFrom n fuel k (10 ^ k) ∧
      1 ≤ digitCountFrom n fuel k (10 ^ k) := by
  induction fuel generalizing k with
  | zero => exact ⟨hlow, hfuel, hk⟩
  | succ fuel ih =>
    unfold digitCountFrom
    split
    · next hlt => exact ⟨hlow, hlt, hk⟩
    · next hge =>
      rw [← Nat.pow_succ']
      refine ih (by omega) ?_ ?_
      · rw [Nat.add_sub_cancel]
        omega
      · rwa [Nat.add_right_comm, Nat.add_assoc]

theorem ten_pow_le_two_pow {a b : ℕ} (hb : b ≠ 0) (h : 10 ^ a ≤ 2 ^ b) {k l : ℕ}
    (hkl : k * b ≤ l * a) : 10 ^ k ≤ 2 ^ l := by
  rw [← Nat.pow_le_pow_iff_left hb]
  calc (10 ^ k) ^ b = 10 ^ (k * b) := (Nat.pow_mul 10 k b).symm
    _ ≤ 10 ^ (l * a) := Nat.pow_le_pow_right (by decide) hkl
    _ = (10 ^ a) ^ l := by rw [← Nat.pow_mul, Nat.mul_comm]
    _ ≤ (2 ^ b) ^ l := Nat.pow_le_pow_left h l
    _ = (2 ^ l) ^ b := Nat.pow_right_comm 2 b l

theorem ten_pow_leastDigitCount_le {n : ℕ} (hn : n ≠ 0) : 10 ^ (leastDigitCount n - 1) ≤ n := by
  refine le_trans ?_ (Nat.log2_self_le hn)
  rw [leastDigitCount, Nat.add_sub_cancel]
  exact ten_pow_le_two_pow (by decide) (show 10 ^ 21306 ≤ 2 ^ 70777 by decide +kernel)
    (Nat.div_mul_le_self _ _)

theorem digitCount_spec {n : ℕ} (hn : n ≠ 0) :
    10 ^ (digitCount n - 1) ≤ n ∧ n < 10 ^ digitCount n ∧ 1 ≤ digitCount n := by
  refine digitCountFrom_spec (Nat.succ_pos _) (ten_pow_leastDigitCount_le hn) ?_
  calc n < 2 ^ (n.log2 + 1) := Nat.lt_log2_self
    _ ≤ 10 ^ (n.log2 + 1) := Nat.pow_le_pow_left (by decide) _
    _ ≤ 10 ^ (leastDigitCount n + (n.log2 + 1)) := Nat.pow_le_pow_right (by decide) (by omega)

/-! ## Exponents and units -/

theorem decimalExponent_spec {num den : ℕ} (hnum : num ≠ 0) (hden : den ≠ 0) :
    (10 : ℚ) ^ (decimalExponent num den - 1) ≤ num / den ∧
      (num / den : ℚ) < 10 ^ decimalExponent num den := by
  have hdenpos : (0 : ℚ) < den := by exact_mod_cast Nat.pos_of_ne_zero hden
  have hnumpos : (0 : ℚ) < num := by exact_mod_cast Nat.pos_of_ne_zero hnum
  unfold decimalExponent
  split
  · next hle =>
    obtain ⟨hlow, hhigh, hone⟩ :=
      digitCount_spec (Nat.pos_iff_ne_zero.1 (Nat.div_pos hle (Nat.pos_of_ne_zero hden)))
    generalize digitCount (num / den) = k at hlow hhigh hone
    rw [Nat.le_div_iff_mul_le (Nat.pos_of_ne_zero hden)] at hlow
    rw [Nat.div_lt_iff_lt_mul (Nat.pos_of_ne_zero hden)] at hhigh
    rw [le_div_iff₀ hdenpos, div_lt_iff₀ hdenpos, show (k : ℤ) - 1 = ((k - 1 : ℕ) : ℤ) by omega,
      zpow_natCast, zpow_natCast]
    exact ⟨by exact_mod_cast hlow, by exact_mod_cast hhigh⟩
  · next hlt =>
    have hquotient : (den - 1) / num ≠ 0 :=
      Nat.pos_iff_ne_zero.1 (Nat.div_pos (by omega) (Nat.pos_of_ne_zero hnum))
    obtain ⟨hlow, hhigh, hone⟩ := digitCount_spec hquotient
    generalize digitCount ((den - 1) / num) = k at hlow hhigh hone
    rw [Nat.le_div_iff_mul_le (Nat.pos_of_ne_zero hnum)] at hlow
    rw [Nat.div_lt_iff_lt_mul (Nat.pos_of_ne_zero hnum)] at hhigh
    constructor
    · have hle : den ≤ 10 ^ k * num := by omega
      rw [show 1 - (k : ℤ) - 1 = -(k : ℤ) by omega, zpow_neg, zpow_natCast, le_div_iff₀ hdenpos,
        inv_mul_le_iff₀ (by positivity)]
      exact_mod_cast hle
    · have hlt : 10 ^ (k - 1) * num < den := by omega
      rw [show 1 - (k : ℤ) = -((k - 1 : ℕ) : ℤ) by omega, zpow_neg, zpow_natCast,
        div_lt_iff₀ hdenpos, lt_inv_mul_iff₀ (by positivity)]
      exact_mod_cast hlt

theorem roundQuotient_spec (num : ℕ) {den : ℕ} (hden : den ≠ 0) :
    (roundQuotient num den : ℚ) ≤ num / den + 1 / 2 ∧
      (num / den + 1 / 2 : ℚ) < roundQuotient num den + 1 := by
  have hdenpos : (0 : ℚ) < den := by exact_mod_cast Nat.pos_of_ne_zero hden
  have hsum : (num / den + 1 / 2 : ℚ) = (2 * num + den : ℕ) / (2 * den : ℕ) := by
    push_cast
    field_simp
  unfold roundQuotient
  rw [hsum]
  have hpos : (0 : ℚ) < (2 * den : ℕ) := by positivity
  rw [le_div_iff₀ hpos, div_lt_iff₀ hpos, mul_comm (_ + 1 : ℚ)]
  constructor
  · exact_mod_cast Nat.div_mul_le_self (2 * num + den) (2 * den)
  · exact_mod_cast Nat.lt_mul_div_succ (2 * num + den) (show 0 < 2 * den by omega)

theorem roundScaled_spec (p num : ℕ) {den : ℕ} (hden : den ≠ 0) (e : ℤ) :
    (roundScaled p num den e : ℚ) ≤ num / den * 10 ^ (p - e) + 1 / 2 ∧
      (num / den * 10 ^ (p - e) + 1 / 2 : ℚ) < roundScaled p num den e + 1 := by
  unfold roundScaled
  dsimp only
  split
  · next hshift =>
    obtain ⟨shift, hnat⟩ := Int.eq_ofNat_of_zero_le hshift
    have hscaled : (num / den * 10 ^ ((p : ℤ) - e) : ℚ) = (num * Nat.pow 10 shift : ℕ) / den := by
      rw [hnat, zpow_natCast, Nat.pow_eq]
      push_cast
      ring
    rw [hscaled, hnat, Int.toNat_natCast]
    exact roundQuotient_spec _ hden
  · next hshift =>
    obtain ⟨shift, hnat⟩ := Int.eq_ofNat_of_zero_le (show 0 ≤ -((p : ℤ) - e) by omega)
    have hscaled : (num / den * 10 ^ ((p : ℤ) - e) : ℚ) = num / (den * Nat.pow 10 shift : ℕ) := by
      rw [show (p : ℤ) - e = -(shift : ℤ) by omega, zpow_neg, zpow_natCast, Nat.pow_eq]
      push_cast
      field_simp
    have hpow : Nat.pow 10 shift ≠ 0 := Nat.pos_iff_ne_zero.1 (Nat.pow_pos (by decide))
    rw [hscaled, hnat, Int.toNat_natCast]
    exact roundQuotient_spec num (Nat.mul_ne_zero hden hpow)

/-! ## Rounded numbers -/

/-- A positive rational, its decimal exponent, and the rational in units of the last of `p` digits,
rounded. -/
structure Rounds (p : ℕ) (q : ℚ) (m : ℕ) (e : ℤ) : Prop where
  low : (10 : ℚ) ^ (e - 1) ≤ q
  high : q < 10 ^ e
  le : (m : ℚ) ≤ q * 10 ^ (p - e) + 1 / 2
  lt : q * 10 ^ (p - e) + 1 / 2 < (m : ℚ) + 1

/-- Significant digits from a rounded number of units; a power of ten too many moves the
exponent. -/
def Significant.ofRounded (p m : ℕ) (e : ℤ) : Significant :=
  ⟨dropTrailingZeros (Nat.toDigits 10 m), if 10 ^ p ≤ m then e + 1 else e⟩

theorem fractionOf_spec {x : Dyadic} (hx : 0 < x.toRat) :
    (fractionOf x).1 ≠ 0 ∧ (fractionOf x).2 ≠ 0 ∧
      ((fractionOf x).1 / (fractionOf x).2 : ℚ) = x.toRat := by
  cases x with
  | zero => exact absurd hx (lt_irrefl 0)
  | ofOdd n k hn =>
    have hpow : (0 : ℚ) < 2 ^ (-k) := by positivity
    rw [Dyadic.toRat_ofOdd_eq_mul_two_pow] at hx ⊢
    have hn0 : 0 < n := by exact_mod_cast pos_of_mul_pos_left hx hpow.le
    obtain ⟨m, rfl⟩ : ∃ m : ℕ, n = m := ⟨n.toNat, by omega⟩
    have hm : m ≠ 0 := by omega
    unfold fractionOf
    dsimp only
    rw [Int.natAbs_natCast, Nat.pow_eq, Nat.pow_eq, Int.cast_natCast]
    refine ⟨by positivity, by positivity, ?_⟩
    push_cast
    -- one of the two powers is one
    rcases le_total 0 k with hk | hk
    · obtain ⟨j, rfl⟩ := Int.eq_ofNat_of_zero_le hk
      rw [Int.toNat_natCast, Int.toNat_of_nonpos (by omega), pow_zero, mul_one, zpow_neg,
        zpow_natCast, div_eq_mul_inv]
    · obtain ⟨j, hj⟩ := Int.eq_ofNat_of_zero_le (show 0 ≤ -k by omega)
      rw [hj, Int.toNat_natCast, Int.toNat_of_nonpos hk, pow_zero, div_one, zpow_natCast]

/-- What is written of a positive number is determined by its rounding. -/
theorem exists_rounds (p : ℕ) {x : Dyadic} (hx : 0 < x.toRat) :
    ∃ m e, Rounds p x.toRat m e ∧ significant p x = .ofRounded p m e := by
  obtain ⟨hnum, hden, hvalue⟩ := fractionOf_spec hx
  obtain ⟨hlow, hhigh⟩ := decimalExponent_spec hnum hden
  obtain ⟨hle, hlt⟩ :=
    roundScaled_spec p (fractionOf x).1 hden (decimalExponent (fractionOf x).1 (fractionOf x).2)
  rw [hvalue] at hlow hhigh hle hlt
  exact ⟨_, _, ⟨hlow, hhigh, hle, hlt⟩, rfl⟩

namespace Rounds

variable {p m : ℕ} {q : ℚ} {e : ℤ}

theorem pos (h : Rounds p q m e) : 0 < q := lt_of_lt_of_le (by positivity) h.low

/-- Rounding to `p` digits gives `p` digits, or one followed by `p` zeros. -/
theorem bounds (h : Rounds p q m e) (hp : 1 ≤ p) : 10 ^ (p - 1) ≤ m ∧ m ≤ 10 ^ p := by
  have hunit : (0 : ℚ) < 10 ^ (p - e) := by positivity
  have hlow : ((10 ^ (p - 1) : ℕ) : ℚ) ≤ q * 10 ^ (p - e) := by
    calc ((10 ^ (p - 1) : ℕ) : ℚ) = 10 ^ (e - 1) * 10 ^ (p - e) := by
          rw [← zpow_add₀ (by norm_num), show e - 1 + (p - e) = ((p - 1 : ℕ) : ℤ) by omega,
            zpow_natCast]
          push_cast
          rfl
      _ ≤ q * 10 ^ (p - e) := by gcongr; exact h.low
  have hhigh : q * 10 ^ (p - e) < ((10 ^ p : ℕ) : ℚ) := by
    calc q * 10 ^ (p - e) < 10 ^ e * 10 ^ (p - e) := by gcongr; exact h.high
      _ = ((10 ^ p : ℕ) : ℚ) := by
          rw [← zpow_add₀ (by norm_num), show e + (p - e) = (p : ℤ) by omega, zpow_natCast]
          push_cast
          rfl
  have hle := h.le
  have hlt := h.lt
  constructor
  · have hcast : ((10 ^ (p - 1) : ℕ) : ℚ) < (m + 1 : ℕ) := by
      push_cast at hlow ⊢
      linarith
    exact Nat.le_of_lt_succ (by exact_mod_cast hcast)
  · have hcast : (m : ℚ) < (10 ^ p + 1 : ℕ) := by
      push_cast at hhigh ⊢
      linarith
    exact Nat.le_of_lt_succ (by exact_mod_cast hcast)

/-- The rounded value is a whole number of the units of a rational that is not greater. -/
theorem exists_units (h : Rounds p q m e) (hp : 1 ≤ p) {y : ℚ} {m' : ℕ} {e' : ℤ}
    (hy : Rounds p y m' e') (hle : y ≤ m * 10 ^ (e - p)) :
    ∃ n : ℕ, (m * 10 ^ (e - p) : ℚ) = n * 10 ^ (e' - p) := by
  obtain ⟨-, hm⟩ := h.bounds hp
  rcases le_or_gt e' e with he | he
  · obtain ⟨k, hk⟩ := Int.eq_ofNat_of_zero_le (sub_nonneg.2 he)
    refine ⟨m * 10 ^ k, ?_⟩
    push_cast
    rw [mul_assoc, ← zpow_natCast, ← zpow_add₀ (by norm_num),
      show (k : ℤ) + (e' - p) = e - p by omega]
  · -- only a power of ten has a rational of a greater exponent below it: the power itself
    have hpower : (m * 10 ^ (e - p) : ℚ) ≤ 10 ^ e := by
      calc (m * 10 ^ (e - p) : ℚ) ≤ (10 ^ p : ℕ) * 10 ^ (e - p) := by gcongr
        _ = 10 ^ e := by
          push_cast
          rw [← zpow_natCast, ← zpow_add₀ (by norm_num), show (p : ℤ) + (e - p) = e by omega]
    have hexponent : e' - 1 ≤ e :=
      (zpow_le_zpow_iff_right₀ (by norm_num : (1 : ℚ) < 10)).1 (hy.low.trans (hle.trans hpower))
    obtain rfl : e' = e + 1 := by omega
    have hvalue : (m * 10 ^ (e - p) : ℚ) = 10 ^ e := by
      refine le_antisymm hpower ((le_of_eq ?_).trans (hy.low.trans hle))
      rw [add_sub_cancel_right]
    refine ⟨10 ^ (p - 1), ?_⟩
    push_cast
    rw [hvalue, ← zpow_natCast, ← zpow_add₀ (by norm_num),
      show ((p - 1 : ℕ) : ℤ) + (e + 1 - p) = e by omega]

/-- The nearest integer of a number that is a little less than an integer. -/
theorem eq_of_close {n k : ℕ} {z X W : ℚ} (hX : 1 ≤ X) (hW : 2 * 10 ^ 8 * X ≤ W) (hle : z ≤ n)
    (hz : z < X) (hclose : (n - z) * W ≤ 4 * n) (hround : (k : ℚ) ≤ z + 1 / 2)
    (hround' : z + 1 / 2 < (k : ℚ) + 1) : k = n := by
  have hhalf : (n : ℚ) - z ≤ 1 / 2 := by
    by_contra hfar
    have hfar : 1 / 2 < (n : ℚ) - z := not_le.1 hfar
    nlinarith [mul_le_mul_of_nonneg_left hW (sub_nonneg.2 hle)]
  have hlow : (k : ℚ) < (n + 1 : ℕ) := by
    push_cast
    linarith
  have hhigh : (n : ℚ) < (k + 1 : ℕ) := by
    push_cast
    linarith
  exact le_antisymm (Nat.le_of_lt_succ (by exact_mod_cast hlow))
    (Nat.le_of_lt_succ (by exact_mod_cast hhigh))

/-- A rational just below a rounded value is rounded to this value. -/
theorem stable (h : Rounds p q m e) (hp : 1 ≤ p) {y : ℚ} {m' : ℕ} {e' : ℤ} {w : ℕ}
    (hy : Rounds p y m' e') (hw : 2 * 10 ^ (p + 8) ≤ 2 ^ w) (hle : y ≤ m * 10 ^ (e - p))
    (hclose : (m * 10 ^ (e - p) - y) * 2 ^ w ≤ 4 * (m * 10 ^ (e - p))) :
    (m' * 10 ^ (e' - p) : ℚ) = m * 10 ^ (e - p) := by
  obtain ⟨n, hn⟩ := h.exists_units hp hy hle
  rw [hn] at hle hclose ⊢
  have hunit : (0 : ℚ) < 10 ^ (e' - p) := by positivity
  have hinverse : (10 : ℚ) ^ (p - e') = (10 ^ (e' - p))⁻¹ := by
    rw [← zpow_neg, neg_sub]
  obtain ⟨-, hhigh, hround, hround'⟩ := hy
  have hpower : y * 10 ^ (p - e') < 10 ^ p := by
    calc y * 10 ^ (p - e') < 10 ^ e' * 10 ^ (p - e') := by gcongr
      _ = 10 ^ p := by
        rw [← zpow_add₀ (by norm_num), show e' + (p - e') = (p : ℤ) by omega, zpow_natCast]
  have hwide : (2 * 10 ^ 8 * 10 ^ p : ℚ) ≤ 2 ^ w := by
    rw [mul_assoc, ← pow_add, Nat.add_comm]
    exact_mod_cast hw
  rw [hinverse] at hround hround' hpower
  generalize (10 : ℚ) ^ (e' - p) = u at *
  -- in units of the last digit
  obtain ⟨z, rfl⟩ : ∃ z, y = z * u := ⟨y * u⁻¹, by field_simp⟩
  rw [mul_inv_cancel_right₀ hunit.ne'] at hround hround' hpower
  have hclose' : (n - z) * 2 ^ w ≤ 4 * n := by
    refine le_of_mul_le_mul_right ?_ hunit
    linarith
  rw [eq_of_close (one_le_pow₀ (by norm_num)) hwide (le_of_mul_le_mul_right hle hunit) hpower
    hclose' hround hround']

end Rounds

/-! ## Digits -/

theorem natOfDigits_append (ds es : List Char) :
    natOfDigits (ds ++ es) = 10 ^ es.length * natOfDigits ds + natOfDigits es := by
  show Nat.ofDigitChars 10 (ds ++ es) 0 = _
  rw [Nat.ofDigitChars_append, Nat.ofDigitChars_eq_ofDigitChars_zero]
  rfl

theorem natOfDigits_replicate (n : ℕ) : natOfDigits (List.replicate n '0') = 0 :=
  Nat.ofDigitChars_replicate_zero

theorem natOfDigits_toDigits (n : ℕ) : natOfDigits (Nat.toDigits 10 n) = n :=
  Nat.ofDigitChars_ten_toDigits

theorem exists_dropTrailingZeros_append (ds : List Char) :
    ∃ n, dropTrailingZeros ds ++ List.replicate n '0' = ds := by
  have hzeros : ∀ c ∈ (ds.reverse.takeWhile (fun c => c == '0')).reverse, c = '0' := fun c hc =>
    beq_iff_eq.1 (List.all_eq_true.1 List.all_takeWhile c (List.mem_reverse.1 hc))
  refine ⟨(ds.reverse.takeWhile (fun c => c == '0')).reverse.length, ?_⟩
  rw [← List.eq_replicate_of_mem hzeros, dropTrailingZeros, ← List.reverse_append,
    List.takeWhile_append_dropWhile, List.reverse_reverse]

theorem dropTrailingZeros_append_zero (ds : List Char) :
    dropTrailingZeros (ds ++ ['0']) = dropTrailingZeros ds := by
  unfold dropTrailingZeros
  rw [List.reverse_append, List.reverse_singleton, List.singleton_append,
    List.dropWhile_cons_of_pos (by rfl)]

theorem toDigits_ten_pow_succ (k : ℕ) :
    Nat.toDigits 10 (10 ^ (k + 1)) = Nat.toDigits 10 (10 ^ k) ++ ['0'] := by
  have happend := Nat.toDigits_append_toDigits (b := 10) (n := 10 ^ k) (d := 0) (by decide)
    (by positivity) (by decide)
  rw [Nat.add_zero, ← Nat.pow_succ'] at happend
  rw [← happend, Nat.toDigits_zero]

theorem length_toDigits {m k : ℕ} (hlow : 10 ^ k ≤ m) (hhigh : m < 10 ^ (k + 1)) :
    (Nat.toDigits 10 m).length = k + 1 := by
  have hle : (Nat.toDigits 10 m).length ≤ k + 1 :=
    (Nat.length_toDigits_le_iff (by decide) (by omega)).2 hhigh
  have hpos : 0 < (Nat.toDigits 10 m).length := Nat.length_toDigits_pos
  cases k with
  | zero => omega
  | succ k =>
    have hnot := mt (Nat.length_toDigits_le_iff (b := 10) (by decide) (Nat.succ_pos k)).1
      (Nat.not_lt.2 hlow)
    omega

namespace Significant

def value (s : Significant) : ℚ := natOfDigits s.digits * 10 ^ (s.exponent - s.digits.length)

variable {p m : ℕ}

/-- The digits of a rounded number of units have the value of the units. -/
theorem value_ofRounded (hp : 1 ≤ p) (hlow : 10 ^ (p - 1) ≤ m) (hhigh : m ≤ 10 ^ p) (e : ℤ) :
    (ofRounded p m e).value = m * 10 ^ (e - p) := by
  obtain ⟨n, hn⟩ := exists_dropTrailingZeros_append (Nat.toDigits 10 m)
  have hdigits : m = 10 ^ n * natOfDigits (dropTrailingZeros (Nat.toDigits 10 m)) := by
    have hvalue := natOfDigits_toDigits m
    rw [← hn, natOfDigits_append, natOfDigits_replicate, List.length_replicate, Nat.add_zero]
      at hvalue
    exact hvalue.symm
  have hexponent : (ofRounded p m e).exponent - (ofRounded p m e).digits.length = e - p + n := by
    have hlength := congrArg List.length hn
    rw [List.length_append, List.length_replicate] at hlength
    show (if 10 ^ p ≤ m then e + 1 else e) -
      (dropTrailingZeros (Nat.toDigits 10 m)).length = e - p + n
    split
    · next hfull =>
      have hpow : 10 ^ p < 10 ^ (p + 1) := Nat.pow_lt_pow_right (by decide) (by omega)
      have hcount := length_toDigits hfull (hhigh.trans_lt hpow)
      omega
    · next hfull =>
      have hcount := length_toDigits hlow (by rw [Nat.sub_add_cancel hp]; omega)
      omega
  rw [value, hexponent, zpow_add₀ (by norm_num), zpow_natCast]
  show (natOfDigits (dropTrailingZeros (Nat.toDigits 10 m)) : ℚ) * _ = _
  conv_rhs => rw [hdigits]
  push_cast
  ring

/-- A power of ten is written the same as all digits or as one more than all digits. -/
theorem ofRounded_power (hp : 1 ≤ p) (e : ℤ) :
    ofRounded p (10 ^ p) e = ofRounded p (10 ^ (p - 1)) (e + 1) := by
  have hdigits : Nat.toDigits 10 (10 ^ p) = Nat.toDigits 10 (10 ^ (p - 1)) ++ ['0'] := by
    rw [← toDigits_ten_pow_succ, Nat.sub_add_cancel hp]
  have hless : ¬ 10 ^ p ≤ 10 ^ (p - 1) := by
    rw [Nat.pow_le_pow_iff_right (by decide)]
    omega
  rw [ofRounded, ofRounded, hdigits, dropTrailingZeros_append_zero, if_pos le_rfl, if_neg hless]

theorem ofRounded_eq_of_le (hp : 1 ≤ p) {m' : ℕ} {e e' : ℤ} (hhigh : m ≤ 10 ^ p)
    (hlow : 10 ^ (p - 1) ≤ m') (h : (m * 10 ^ (e - p) : ℚ) = m' * 10 ^ (e' - p)) (he : e ≤ e') :
    ofRounded p m e = ofRounded p m' e' := by
  obtain ⟨k, hk⟩ := Int.eq_ofNat_of_zero_le (sub_nonneg.2 he)
  obtain rfl : e' = e + k := by omega
  have hm : m = m' * 10 ^ k := by
    rw [show e + k - p = k + (e - p) by omega, zpow_add₀ (by norm_num), zpow_natCast,
      ← mul_assoc] at h
    exact_mod_cast mul_right_cancel₀ (by positivity) h
  cases k with
  | zero =>
    rw [pow_zero, mul_one] at hm
    rw [hm, Nat.cast_zero, add_zero]
  | succ k =>
    -- ten times as many units are too many, unless they are exactly the power of ten
    have hpower : 10 ^ (p - 1) * 10 ^ (k + 1) ≤ 10 ^ p :=
      (Nat.mul_le_mul_right _ hlow).trans (hm ▸ hhigh)
    rw [← Nat.pow_add, Nat.pow_le_pow_iff_right (by decide)] at hpower
    obtain rfl : k = 0 := by omega
    obtain ⟨j, rfl⟩ : ∃ j, p = j + 1 := ⟨p - 1, by omega⟩
    rw [Nat.add_sub_cancel] at hlow
    have hm' : m' = 10 ^ j := by
      rw [pow_succ] at hhigh
      omega
    have hmp : m = 10 ^ (j + 1) := by rw [hm, hm', Nat.zero_add, pow_one, ← pow_succ]
    rw [hmp, hm', ofRounded_power hp]
    rfl

/-- Equal values are written with the same digits and exponent. -/
theorem ofRounded_congr (hp : 1 ≤ p) {m' : ℕ} {e e' : ℤ} (hm : 10 ^ (p - 1) ≤ m ∧ m ≤ 10 ^ p)
    (hm' : 10 ^ (p - 1) ≤ m' ∧ m' ≤ 10 ^ p) (h : (m * 10 ^ (e - p) : ℚ) = m' * 10 ^ (e' - p)) :
    ofRounded p m e = ofRounded p m' e' := by
  rcases le_total e e' with he | he
  · exact ofRounded_eq_of_le hp hm.2 hm'.1 h he
  · exact (ofRounded_eq_of_le hp hm'.2 hm.1 h.symm he).symm

end Significant

/-! ## Stability -/

/-- A number near the written value of another one is written the same. -/
theorem significant_eq_of_near {p w : ℕ} (hp : 1 ≤ p) (hw : 2 * 10 ^ (p + 8) ≤ 2 ^ w)
    {x y : Dyadic} (hx : 0 < x.toRat) (hy : Binary.Near w (significant p x).value y) :
    significant p y = significant p x := by
  obtain ⟨m, e, hm, hsignificant⟩ := exists_rounds p hx
  obtain ⟨m', e', hm', hsignificant'⟩ := exists_rounds p hy.pos
  obtain ⟨hlow, hhigh⟩ := hm.bounds hp
  rw [hsignificant, Significant.value_ofRounded hp hlow hhigh] at hy
  rw [hsignificant, hsignificant']
  exact Significant.ofRounded_congr hp (hm'.bounds hp) ⟨hlow, hhigh⟩
    (hm.stable hp hm' hw hy.le hy.close)

end Decimal

/-- The working width holds the guard digits beyond the ones shown. -/
theorem Precision.ten_pow_le_two_pow_bits (p : Precision) :
    2 * 10 ^ (p.shown + 8) ≤ 2 ^ p.bits := by
  have hpower : 10 ^ (p.shown + 8) ≤ 2 ^ (((p.shown + 8) * 1000 + 300) / 301) :=
    Decimal.ten_pow_le_two_pow (by decide) (show 10 ^ 301 ≤ 2 ^ 1000 by decide +kernel) (by omega)
  calc 2 * 10 ^ (p.shown + 8) ≤ 2 * 2 ^ (((p.shown + 8) * 1000 + 300) / 301) :=
        Nat.mul_le_mul_left 2 hpower
    _ = 2 ^ p.bits := Nat.pow_succ'.symm

end Reckoner
