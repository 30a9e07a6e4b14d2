import Mathlib.Algebra.Order.Field.Basic
import Mathlib.Algebra.Order.Field.Power
import Mathlib.Data.Rat.Lemmas
import Mathlib.Tactic.FieldSimp
import Mathlib.Tactic.Linarith
import Mathlib.Tactic.Positivity
import Mathlib.Tactic.Ring
import Reckoner.Decimal.Reading

/-!
# Numbers cut to a width

1. `Binary.Fits w x`: the number `x` has at most `w` bits.  Cutting gives such numbers and leaves
   them alone (`Binary.fits_cut`, `Binary.Fits.cut_eq`).
2. `Binary.Near w q y`: a positive rational `q` is cut to `y`, and little of it is lost.  This holds
   of cut numbers and quotients (`Binary.near_cut`, `Binary.near_ratio`) and so of the value that a
   decimal is read as (`Decimal.near_toDyadic`).
-/

namespace Reckoner

namespace Binary

/-! ## Widths -/

/-- The number has at most `w` bits. -/
def Fits (w : Nat) (x : Dyadic) : Prop :=
  ∃ n k : Int, n.natAbs < 2 ^ w ∧ x = .ofIntWithPrec n k

theorem fits_zero (w : Nat) : Fits w 0 := ⟨0, 0, by simp, rfl⟩

theorem fits_one {w : Nat} (hw : 1 ≤ w) : Fits w 1 :=
  ⟨1, 0, Nat.one_lt_two_pow (by omega), by decide +kernel⟩

theorem Fits.neg {w : Nat} {x : Dyadic} (h : Fits w x) : Fits w (-x) := by
  obtain ⟨n, k, hn, rfl⟩ := h
  exact ⟨-n, k, by rwa [Int.natAbs_neg], Dyadic.neg_ofIntWithPrec⟩

theorem neg_neg_eq (x : Dyadic) : - -x = x := by
  rw [← Dyadic.toRat_inj, Dyadic.toRat_neg, Dyadic.toRat_neg, neg_neg]

/-- The odd part of an integer is not longer than the integer. -/
theorem natAbs_le_of_ofOdd_eq {n k m j : Int} {hm : m % 2 = 1}
    (h : Dyadic.ofOdd m j hm = .ofIntWithPrec n k) : m.natAbs ≤ n.natAbs := by
  have hn : n ≠ 0 := by
    rintro rfl
    cases h
  unfold Dyadic.ofIntWithPrec at h
  rw [dif_neg hn] at h
  cases h
  rw [Int.shiftRight_eq_div_pow]
  exact Int.natAbs_ediv_le_natAbs n _

theorem Fits.cut_eq {w : Nat} {x : Dyadic} (h : Fits w x) : cut w x = x := by
  obtain ⟨n, k, hn, hx⟩ := h
  cases x with
  | zero => rfl
  | ofOdd m j hm =>
    have hm0 : m.natAbs ≠ 0 := by omega
    have hlog : m.natAbs.log2 < w :=
      (Nat.log2_lt hm0).2 ((natAbs_le_of_ofOdd_eq hx).trans_lt hn)
    unfold cut
    exact if_pos (by omega)

theorem fits_cut (w : Nat) (x : Dyadic) : Fits w (cut w x) := by
  cases x with
  | zero => exact fits_zero w
  | ofOdd n k hn =>
    have hlt : n.natAbs < 2 ^ (n.natAbs.log2 + 1) := Nat.lt_log2_self
    unfold cut
    dsimp only
    split
    · next hextra =>
      refine ⟨n, k, hlt.trans_le (Nat.pow_le_pow_right (by decide) (by omega)), ?_⟩
      exact Dyadic.ofOdd_eq_ofIntWithPrec
    · next hextra =>
      refine ⟨_, _, ?_, rfl⟩
      rw [Int.natAbs_tdiv, Int.natAbs_natCast]
      refine Nat.div_lt_of_lt_mul ?_
      show n.natAbs < 2 ^ _ * 2 ^ w
      rwa [← Nat.pow_add, show n.natAbs.log2 + 1 - w + w = n.natAbs.log2 + 1 by omega]

/-! ## What is lost -/

/-- A positive rational is cut to a number of `w` bits: at most four parts in `2 ^ w` are lost. -/
structure Near (w : Nat) (q : ℚ) (y : Dyadic) : Prop where
  pos : 0 < y.toRat
  le : y.toRat ≤ q
  close : (q - y.toRat) * 2 ^ w ≤ 4 * q
  fits : Fits w y

/-- Of the bits of an integer the leading `w` are kept.  Those that are dropped are worth less than
the last one that is kept. -/
theorem kept_bits_bounds {m w extra : ℕ} (hw : 1 ≤ w) (hm : m ≠ 0) (hsum : extra + w = m.log2 + 1) :
    0 < m / 2 ^ extra * 2 ^ extra ∧ m / 2 ^ extra * 2 ^ extra ≤ m ∧
      (m - m / 2 ^ extra * 2 ^ extra) * 2 ^ w ≤ 2 * m := by
  have hself : 2 ^ m.log2 ≤ m := Nat.log2_self_le hm
  have hlow : 2 ^ extra ≤ m := le_trans (Nat.pow_le_pow_right (by decide) (by omega)) hself
  refine ⟨?_, Nat.div_mul_le_self m (2 ^ extra), ?_⟩
  · exact Nat.mul_pos (Nat.div_pos hlow (Nat.two_pow_pos extra)) (Nat.two_pow_pos extra)
  · have hmod : m - m / 2 ^ extra * 2 ^ extra < 2 ^ extra := by
      have := Nat.mod_lt m (Nat.two_pow_pos extra)
      have := Nat.div_add_mod' m (2 ^ extra)
      omega
    calc (m - m / 2 ^ extra * 2 ^ extra) * 2 ^ w
        ≤ 2 ^ extra * 2 ^ w := Nat.mul_le_mul_right _ hmod.le
      _ = 2 * 2 ^ m.log2 := by rw [← pow_add, hsum, pow_succ']
      _ ≤ 2 * m := Nat.mul_le_mul_left 2 hself

theorem exists_natCast_of_toRat_pos {n k : Int} {hn : n % 2 = 1}
    (h : 0 < (Dyadic.ofOdd n k hn).toRat) : ∃ m : ℕ, m ≠ 0 ∧ n = m := by
  have hpow : (0 : ℚ) < 2 ^ (-k) := by positivity
  rw [Dyadic.toRat_ofOdd_eq_mul_two_pow] at h
  have hn0 : 0 < n := by exact_mod_cast pos_of_mul_pos_left h hpow.le
  exact ⟨n.toNat, by omega, by omega⟩

/-- The bits beyond the first `w` are dropped. -/
theorem toRat_cut (w m : ℕ) (k : Int) (hm : (m : Int) % 2 = 1) :
    (cut w (.ofOdd m k hm)).toRat =
      (m / 2 ^ (m.log2 + 1 - w) * 2 ^ (m.log2 + 1 - w) : ℕ) * (2 : ℚ) ^ (-k) := by
  unfold cut
  dsimp only
  rw [Int.natAbs_natCast]
  generalize m.log2 + 1 - w = extra
  split
  · next hextra =>
    subst hextra
    rw [Dyadic.toRat_ofOdd_eq_mul_two_pow, pow_zero, Nat.div_one, mul_one, Int.cast_natCast]
  · have hdiv : (m : ℤ).tdiv (Nat.pow 2 extra : ℕ) = ((m / 2 ^ extra : ℕ) : ℤ) := rfl
    rw [Dyadic.toRat_ofIntWithPrec_eq_mul_two_pow, neg_sub, sub_eq_add_neg,
      zpow_add₀ (by norm_num), zpow_natCast, hdiv, Int.cast_natCast, Nat.cast_mul,
      Nat.cast_pow, Nat.cast_ofNat]
    ring

theorem cut_bounds {w : Nat} (hw : 1 ≤ w) {x : Dyadic} (hx : 0 < x.toRat) :
    0 < (cut w x).toRat ∧ (cut w x).toRat ≤ x.toRat ∧
      (x.toRat - (cut w x).toRat) * 2 ^ w ≤ 2 * x.toRat := by
  cases x with
  | zero => exact absurd hx (lt_irrefl 0)
  | ofOdd n k hn =>
    obtain ⟨m, hm, rfl⟩ := exists_natCast_of_toRat_pos hx
    have hkept : 0 < m / 2 ^ (m.log2 + 1 - w) * 2 ^ (m.log2 + 1 - w) ∧
        m / 2 ^ (m.log2 + 1 - w) * 2 ^ (m.log2 + 1 - w) ≤ m ∧
        (m - m / 2 ^ (m.log2 + 1 - w) * 2 ^ (m.log2 + 1 - w)) * 2 ^ w ≤ 2 * m := by
      by_cases hlong : w ≤ m.log2 + 1
      · exact kept_bits_bounds hw hm (by omega)
      · rw [show m.log2 + 1 - w = 0 by omega, pow_zero, Nat.div_one, mul_one, Nat.sub_self]
        exact ⟨by omega, le_refl m, by omega⟩
    rw [toRat_cut, Dyadic.toRat_ofOdd_eq_mul_two_pow]
    generalize m / 2 ^ (m.log2 + 1 - w) * 2 ^ (m.log2 + 1 - w) = kept at hkept ⊢
    obtain ⟨hpos, hle, hlost⟩ := hkept
    push_cast
    refine ⟨by positivity, ?_, ?_⟩
    · gcongr
    · have hcast : ((m - kept : ℕ) : ℚ) * 2 ^ w ≤ 2 * m := by exact_mod_cast hlost
      rw [Nat.cast_sub hle] at hcast
      calc ((m : ℚ) * 2 ^ (-k) - kept * 2 ^ (-k)) * 2 ^ w
          = (m - kept) * 2 ^ w * 2 ^ (-k) := by ring
        _ ≤ 2 * m * 2 ^ (-k) := by gcongr
        _ = 2 * (m * 2 ^ (-k)) := by ring

theorem two_pow_le_cut {w : Nat} (hw : 1 ≤ w) {x : Dyadic} {t : Int}
    (hx : (2 : ℚ) ^ t ≤ x.toRat) : (2 : ℚ) ^ t ≤ (cut w x).toRat := by
  have htwo : (1 : ℚ) < 2 := by norm_num
  cases x with
  | zero => exact hx
  | ofOdd n k hn =>
    have hpos : (0 : ℚ) < 2 ^ t := by positivity
    obtain ⟨m, hm, rfl⟩ := exists_natCast_of_toRat_pos (hpos.trans_le hx)
    have hkept : 2 ^ m.log2 ≤ m / 2 ^ (m.log2 + 1 - w) * 2 ^ (m.log2 + 1 - w) := by
      have hsum : m.log2 - (m.log2 + 1 - w) + (m.log2 + 1 - w) = m.log2 := by omega
      have hself : 2 ^ m.log2 ≤ m := Nat.log2_self_le hm
      generalize m.log2 + 1 - w = extra at hsum ⊢
      rw [← hsum, pow_add] at hself ⊢
      exact Nat.mul_le_mul_right _ ((Nat.le_div_iff_mul_le (Nat.two_pow_pos extra)).2 hself)
    -- the power is one of the bits of the number, so it is at most the first one
    have ht : t < m.log2 + 1 - k := by
      have hlt : (m : ℚ) < 2 ^ (m.log2 + 1) := by exact_mod_cast Nat.lt_log2_self
      rw [Dyadic.toRat_ofOdd_eq_mul_two_pow, Int.cast_natCast] at hx
      refine (zpow_lt_zpow_iff_right₀ htwo).1 (hx.trans_lt ?_)
      rw [sub_eq_add_neg, zpow_add₀ (by norm_num)]
      have hpow : (0 : ℚ) < 2 ^ (-k) := by positivity
      exact_mod_cast (mul_lt_mul_iff_left₀ hpow).2 hlt
    rw [toRat_cut]
    calc (2 : ℚ) ^ t ≤ 2 ^ ((m.log2 : ℤ) + -k) := zpow_le_zpow_right₀ htwo.le (by omega)
      _ = (2 ^ m.log2 : ℕ) * 2 ^ (-k) := by
        rw [zpow_add₀ (by norm_num), zpow_natCast]
        push_cast
        rfl
      _ ≤ _ := by gcongr

theorem near_cut {w : Nat} (hw : 1 ≤ w) {x : Dyadic} (hx : 0 < x.toRat) :
    Near w x.toRat (cut w x) := by
  obtain ⟨hpos, hle, hclose⟩ := cut_bounds hw hx
  exact ⟨hpos, hle, by linarith, fits_cut w x⟩

/-- A scaled quotient of more than `w` bits loses less than a part in `2 ^ w` of its value. -/
theorem scaled_quotient_bounds {n d w shift : ℕ} (hd : d ≠ 0) (hlong : 2 ^ w ≤ n * 2 ^ shift / d) :
    ((n * 2 ^ shift / d : ℕ) / 2 ^ shift : ℚ) ≤ n / d ∧
      (n / d - (n * 2 ^ shift / d : ℕ) / 2 ^ shift : ℚ) * 2 ^ w ≤
        (n * 2 ^ shift / d : ℕ) / 2 ^ shift := by
  have hdpos : (0 : ℚ) < d := by exact_mod_cast Nat.pos_of_ne_zero hd
  have hle : ((n * 2 ^ shift / d : ℕ) : ℚ) / 2 ^ shift ≤ n / d := by
    rw [div_le_div_iff₀ (by positivity) hdpos]
    exact_mod_cast Nat.div_mul_le_self (n * 2 ^ shift) d
  have hlt : (n / d : ℚ) ≤ ((n * 2 ^ shift / d : ℕ) + 1) / 2 ^ shift := by
    rw [div_le_div_iff₀ hdpos (by positivity), mul_comm _ (d : ℚ)]
    exact_mod_cast (Nat.lt_mul_div_succ (n * 2 ^ shift) (Nat.pos_of_ne_zero hd)).le
  have hlongcast : (2 : ℚ) ^ w ≤ (n * 2 ^ shift / d : ℕ) := by exact_mod_cast hlong
  refine ⟨hle, ?_⟩
  rw [add_div] at hlt
  calc (n / d - (n * 2 ^ shift / d : ℕ) / 2 ^ shift : ℚ) * 2 ^ w
      ≤ 1 / 2 ^ shift * 2 ^ w := by gcongr; linarith
    _ = 2 ^ w / 2 ^ shift := by ring
    _ ≤ (n * 2 ^ shift / d : ℕ) / 2 ^ shift := by gcongr

/-- A quotient is cut twice, first to an integer of more than `w` bits and then to `w` bits. -/
theorem exists_ratio_eq_cut (w : Nat) {n d : ℕ} (hn : n ≠ 0) (hd : d ≠ 0) :
    ∃ shift : ℕ, 2 ^ w ≤ n * 2 ^ shift / d ∧
      ratio w n d = cut w (.ofIntWithPrec ((n * 2 ^ shift / d : ℕ) : ℤ) shift) := by
  refine ⟨w + d.log2 + 1 - n.log2, ?_, ?_⟩
  · have hshift : w + d.log2 + 1 ≤ n.log2 + (w + d.log2 + 1 - n.log2) := by omega
    generalize w + d.log2 + 1 - n.log2 = shift at hshift ⊢
    rw [Nat.le_div_iff_mul_le (Nat.pos_of_ne_zero hd)]
    have hdlt : d < 2 ^ (d.log2 + 1) := Nat.lt_log2_self
    have hnle : 2 ^ n.log2 ≤ n := Nat.log2_self_le hn
    calc 2 ^ w * d ≤ 2 ^ w * 2 ^ (d.log2 + 1) := Nat.mul_le_mul_left _ hdlt.le
      _ = 2 ^ (w + (d.log2 + 1)) := (pow_add 2 w (d.log2 + 1)).symm
      _ ≤ 2 ^ (n.log2 + shift) := Nat.pow_le_pow_right (by decide) (by omega)
      _ = 2 ^ n.log2 * 2 ^ shift := pow_add 2 n.log2 shift
      _ ≤ n * 2 ^ shift := Nat.mul_le_mul_right _ hnle
  · unfold ratio
    dsimp only
    rw [Int.natAbs_natCast]
    rfl

theorem near_ratio {w : Nat} (hw : 1 ≤ w) {n d : ℕ} (hn : n ≠ 0) (hd : d ≠ 0) :
    Near w (n / d) (ratio w n d) := by
  obtain ⟨shift, hlong, hratio⟩ := exists_ratio_eq_cut w hn hd
  rw [hratio]
  obtain ⟨hle, hinteger⟩ := scaled_quotient_bounds hd hlong
  have hvalue : (Dyadic.ofIntWithPrec ((n * 2 ^ shift / d : ℕ) : ℤ) shift).toRat =
      (n * 2 ^ shift / d : ℕ) / (2 : ℚ) ^ shift := by
    rw [Dyadic.toRat_ofIntWithPrec_eq_mul_two_pow, Int.cast_natCast, zpow_neg, zpow_natCast,
      div_eq_mul_inv]
  rw [← hvalue] at hle hinteger
  have hpos : 0 < (Dyadic.ofIntWithPrec ((n * 2 ^ shift / d : ℕ) : ℤ) shift).toRat := by
    have hquotient : 0 < n * 2 ^ shift / d := (Nat.two_pow_pos w).trans_le hlong
    rw [hvalue]
    positivity
  obtain ⟨hcut, hcutle, hclose⟩ := cut_bounds hw hpos
  exact ⟨hcut, hcutle.trans hle, by linarith, fits_cut w _⟩

end Binary

/-! ## Decimals -/

/-- The value of a decimal without its sign. -/
def Decimal.magnitude (d : Decimal) : ℚ := d.mantissa * 10 ^ d.exponent

theorem Decimal.toDyadic_eq_zero (w : Nat) {d : Decimal} (hd : d.mantissa = 0) :
    d.toDyadic w = 0 := by
  have hsigned : d.signed = 0 := by
    unfold signed
    rw [hd]
    exact ite_self _
  have hunits : ∀ k : ℤ, Dyadic.ofIntWithPrec 0 k = 0 := fun k => by
    rw [← Dyadic.toRat_inj, Dyadic.toRat_ofIntWithPrec_eq_mul_two_pow, Int.cast_zero, zero_mul,
      Dyadic.toRat_zero]
  unfold toDyadic Binary.ratio
  dsimp only
  rw [hsigned, Int.zero_mul, Int.zero_mul, Int.zero_tdiv, hunits, hunits, Binary.cut_zero, ite_self]

/-- A decimal is read as a number near its value. -/
theorem Decimal.near_toDyadic {w : Nat} (hw : 1 ≤ w) {d : Decimal} (hsign : d.negative = false)
    (hd : d.mantissa ≠ 0) : Binary.Near w d.magnitude (d.toDyadic w) := by
  have hsigned : d.signed = (d.mantissa : ℤ) := by
    rw [signed, hsign]
    rfl
  unfold toDyadic
  rw [hsigned]
  by_cases hexponent : 0 ≤ d.exponent
  · rw [if_pos hexponent]
    obtain ⟨e, he⟩ := Int.eq_ofNat_of_zero_le hexponent
    have hvalue : (Dyadic.ofIntWithPrec ((d.mantissa : ℤ) * (Nat.pow 5 d.exponent.toNat : ℕ))
        (-d.exponent)).toRat = d.magnitude := by
      rw [Dyadic.toRat_ofIntWithPrec_eq_mul_two_pow, magnitude, he, neg_neg, Int.toNat_natCast,
        zpow_natCast, zpow_natCast, Nat.pow_eq, show (10 : ℚ) = 5 * 2 by norm_num, mul_pow]
      push_cast
      ring
    rw [← hvalue]
    refine Binary.near_cut hw ?_
    rw [hvalue, magnitude]
    have : 0 < d.mantissa := Nat.pos_of_ne_zero hd
    positivity
  · rw [if_neg hexponent]
    obtain ⟨e, he⟩ := Int.eq_ofNat_of_zero_le (show 0 ≤ -d.exponent by omega)
    have hvalue : (d.mantissa : ℚ) / (Nat.pow 10 (-d.exponent).toNat : ℕ) = d.magnitude := by
      rw [magnitude, he, Int.toNat_natCast, show d.exponent = -(e : ℤ) by omega, zpow_neg,
        zpow_natCast, div_eq_mul_inv, Nat.pow_eq, Nat.cast_pow, Nat.cast_ofNat]
    rw [← hvalue, Nat.pow_eq]
    exact Binary.near_ratio hw hd (by positivity)

end Reckoner
