import Mathlib.Data.Rat.Floor
import Reckoner.Number.Arithmetic
import Reckoner.Precision
import Reckoner.Proofs.Number.Integer

/-!
# Quotients and remainders of integers

`Binary.Truncates w q y`: of the numbers of `w` bits between zero and the rational `q`, the number
`y` is the farthest from zero.

1. Cutting and dividing truncate (`Binary.truncates_cut`, `Binary.truncates_div`), so a result that
   has at most `w` bits is exact (`Binary.Truncates.eq_of_fits`).
2. An integer of at most `w` bits has no place between a rational and its truncation, so the integer
   part of a cut quotient of integers is the integer quotient (`Binary.trunc_div_ofInt`).
3. The remainder of integers is the one with the sign of the dividend
   (`Number.remainder_of_integers`).
-/

namespace Reckoner

namespace Binary

/-! ## Truncation -/

/-- The rational `q` is rounded toward zero to a number of `w` bits. -/
structure Truncates (w : Nat) (q : ℚ) (y : Dyadic) : Prop where
  fits : Fits w y
  le : |y.toRat| ≤ |q|
  sign : 0 ≤ y.toRat * q
  farthest : ∀ x, Fits w x → |x.toRat| ≤ |q| → |x.toRat| ≤ |y.toRat|

variable {w : Nat} {q : ℚ} {x y : Dyadic}

namespace Truncates

theorem zero (w : Nat) : Truncates w 0 0 where
  fits := fits_zero w
  le := le_refl _
  sign := by simp
  farthest _ _ h := h

/-- Of a rational that is not negative only the numbers below it count. -/
theorem of_nonneg (hfits : Fits w y) (hy : 0 ≤ y.toRat) (hle : y.toRat ≤ q)
    (hgreatest : ∀ x, Fits w x → x.toRat ≤ q → x.toRat ≤ y.toRat) : Truncates w q y where
  fits := hfits
  le := by rwa [abs_of_nonneg hy, abs_of_nonneg (hy.trans hle)]
  sign := mul_nonneg hy (hy.trans hle)
  farthest x hx hxle := by
    rw [abs_of_nonneg (hy.trans hle), abs_le] at hxle
    rw [abs_of_nonneg hy, abs_le]
    have hneg := hgreatest (-x) hx.neg
    rw [Dyadic.toRat_neg] at hneg
    exact ⟨by linarith [hneg (by linarith)], hgreatest x hx hxle.2⟩

theorem neg (h : Truncates w q y) : Truncates w (-q) (-y) where
  fits := h.fits.neg
  le := by rw [Dyadic.toRat_neg, abs_neg, abs_neg]; exact h.le
  sign := by rw [Dyadic.toRat_neg, neg_mul_neg]; exact h.sign
  farthest x hx hle := by
    rw [abs_neg] at hle
    rw [Dyadic.toRat_neg, abs_neg]
    exact h.farthest x hx hle

theorem nonneg (h : Truncates w q y) (hq : 0 ≤ q) : 0 ≤ y.toRat := by
  rcases hq.lt_or_eq with hq | rfl
  · exact nonneg_of_mul_nonneg_left h.sign hq
  · have hle := h.le
    rw [abs_zero] at hle
    exact (abs_nonpos_iff.1 hle).ge

/-- A number of `w` bits that is not above the rational is not above its truncation. -/
theorem greatest (h : Truncates w q y) (hq : 0 ≤ q) (hx : Fits w x) (hle : x.toRat ≤ q) :
    x.toRat ≤ y.toRat := by
  have hy := h.nonneg hq
  rcases le_total 0 x.toRat with hpos | hneg
  · have hfar := h.farthest x hx
    rw [abs_of_nonneg hpos, abs_of_nonneg hq, abs_of_nonneg hy] at hfar
    exact hfar hle
  · exact hneg.trans hy

theorem eq_of_fits (h : Truncates w x.toRat y) (hx : Fits w x) : y = x := by
  have habs : |y.toRat| = |x.toRat| := le_antisymm h.le (h.farthest x hx le_rfl)
  rcases abs_eq_abs.1 habs with heq | hopposite
  · exact Dyadic.toRat_inj.1 heq
  · have hsign := h.sign
    rw [hopposite, neg_mul, neg_nonneg] at hsign
    have hzero : x.toRat = 0 := mul_self_eq_zero.1 (le_antisymm hsign (mul_self_nonneg _))
    rw [hzero, neg_zero] at hopposite
    exact Dyadic.toRat_inj.1 (hopposite.trans hzero.symm)

end Truncates

/-! ## Cutting truncates -/

/-- A number of `w` bits is a whole number of units, or it is less than `2 ^ (w - 1)` units. -/
theorem Fits.le_of_lt_succ {units : ℕ} {u : ℤ} (hx : Fits w x) (hunits : 2 ^ (w - 1) ≤ units)
    (hlt : x.toRat < (units + 1 : ℕ) * 2 ^ u) : x.toRat ≤ units * 2 ^ u := by
  obtain ⟨j, t, hj, rfl⟩ := hx
  rw [Dyadic.toRat_ofIntWithPrec_eq_mul_two_pow] at hlt ⊢
  have hu : (0 : ℚ) < 2 ^ u := by positivity
  rcases le_or_gt u (-t) with hwhole | hsmall
  · obtain ⟨k, hk⟩ := Int.eq_ofNat_of_zero_le (sub_nonneg.2 hwhole)
    have hpow : (2 : ℚ) ^ (-t) = 2 ^ k * 2 ^ u := by
      rw [← zpow_natCast, ← zpow_add₀ (by norm_num)]
      congr 1
      omega
    rw [hpow, ← mul_assoc] at hlt ⊢
    have hcount : j * 2 ^ k < units + 1 := by exact_mod_cast lt_of_mul_lt_mul_right hlt hu.le
    have hcast : (j * 2 ^ k : ℚ) ≤ units := by exact_mod_cast Int.lt_add_one_iff.1 hcount
    gcongr
  · have hbits : (j : ℚ) ≤ 2 * units := by
      have hpow : 2 ^ w ≤ 2 * 2 ^ (w - 1) := by
        rw [← pow_succ']
        exact Nat.pow_le_pow_right (by decide) (by omega)
      exact_mod_cast (show j ≤ (2 * units : ℕ) by omega)
    calc (j : ℚ) * 2 ^ (-t) ≤ 2 * units * 2 ^ (-t) := by gcongr
      _ ≤ 2 * units * 2 ^ (u - 1) := by
        gcongr
        · norm_num
        · omega
      _ = units * 2 ^ u := by
        rw [zpow_sub_one₀ (by norm_num)]
        ring

theorem cut_neg (w : Nat) (x : Dyadic) : cut w (-x) = -cut w x := by
  cases x with
  | zero => rfl
  | ofOdd n k hn =>
    rw [Dyadic.neg_ofOdd]
    unfold cut
    dsimp only
    rw [Int.natAbs_neg]
    split
    · rw [Dyadic.neg_ofOdd]
    · rw [Int.neg_tdiv, Dyadic.neg_ofIntWithPrec]

theorem truncates_cut_of_pos (hw : 1 ≤ w) (hx : 0 < x.toRat) :
    Truncates w x.toRat (cut w x) := by
  obtain ⟨hpos, hle, -⟩ := cut_bounds hw hx
  refine .of_nonneg (fits_cut w x) hpos.le hle fun z hz hzle => ?_
  cases x with
  | zero => exact hzle
  | ofOdd n k hn =>
    obtain ⟨m, hm, rfl⟩ := exists_natCast_of_toRat_pos hx
    by_cases hlong : w ≤ m.log2
    · have hself : 2 ^ m.log2 ≤ m := Nat.log2_self_le hm
      have hsum : w - 1 + (m.log2 + 1 - w) = m.log2 := by omega
      rw [toRat_cut]
      rw [Dyadic.toRat_ofOdd_eq_mul_two_pow, Int.cast_natCast] at hzle
      generalize m.log2 + 1 - w = extra at hsum ⊢
      have hpow : (2 : ℚ) ^ ((extra : ℤ) + -k) = 2 ^ extra * 2 ^ (-k) := by
        rw [zpow_add₀ (by norm_num), zpow_natCast]
      have hunits : 2 ^ (w - 1) ≤ m / 2 ^ extra := by
        rw [Nat.le_div_iff_mul_le (Nat.two_pow_pos extra), ← pow_add, hsum]
        exact hself
      have hlt : (m : ℚ) < (m / 2 ^ extra + 1 : ℕ) * 2 ^ extra := by
        rw [mul_comm]
        exact_mod_cast Nat.lt_mul_div_succ m (Nat.two_pow_pos extra)
      have hkept := hz.le_of_lt_succ (u := extra + -k) hunits (by
        rw [hpow, ← mul_assoc]
        exact hzle.trans_lt (by gcongr))
      rw [hpow, ← mul_assoc] at hkept
      push_cast
      exact hkept
    · -- all bits are kept
      have hfits : Fits w (.ofOdd m k hn) := by
        refine ⟨m, k, ?_, Dyadic.ofOdd_eq_ofIntWithPrec⟩
        rw [Int.natAbs_natCast]
        exact Nat.lt_log2_self.trans_le (Nat.pow_le_pow_right (by decide) (by omega))
      rwa [hfits.cut_eq]

/-- A number is cut toward zero. -/
theorem truncates_cut (hw : 1 ≤ w) (x : Dyadic) : Truncates w x.toRat (cut w x) := by
  rcases lt_trichotomy x.toRat 0 with hneg | hzero | hpos
  · have h := (truncates_cut_of_pos hw (x := -x) (by rw [Dyadic.toRat_neg]; linarith)).neg
    rwa [cut_neg, Dyadic.toRat_neg, neg_neg, neg_neg_eq] at h
  · rw [Dyadic.toRat_eq_zero_iff.1 hzero]
    exact .zero w
  · exact truncates_cut_of_pos hw hpos

/-! ## Quotients truncate -/

theorem ratio_neg (w : Nat) (n : ℤ) (d : ℕ) : ratio w (-n) d = -ratio w n d := by
  unfold ratio
  dsimp only
  rw [Int.natAbs_neg, neg_mul, Int.neg_tdiv, ← Dyadic.neg_ofIntWithPrec, cut_neg]

theorem truncates_ratio_natCast (hw : 1 ≤ w) {n d : ℕ} (hn : n ≠ 0) (hd : d ≠ 0) :
    Truncates w (n / d) (ratio w n d) := by
  have hnear := near_ratio hw hn hd
  refine .of_nonneg hnear.fits hnear.pos.le hnear.le fun z hz hzle => ?_
  obtain ⟨shift, hlong, hratio⟩ := exists_ratio_eq_cut w hn hd
  -- the first cut leaves whole units, and more of them than a number of `w` bits has parts
  have hunits : 2 ^ (w - 1) ≤ n * 2 ^ shift / d :=
    (Nat.pow_le_pow_right (by decide) (by omega)).trans hlong
  have hlt : (n / d : ℚ) < (n * 2 ^ shift / d + 1 : ℕ) * 2 ^ (-(shift : ℤ)) := by
    rw [zpow_neg, zpow_natCast, ← div_eq_mul_inv,
      div_lt_div_iff₀ (by exact_mod_cast Nat.pos_of_ne_zero hd) (by positivity), mul_comm _ (d : ℚ)]
    exact_mod_cast Nat.lt_mul_div_succ (n * 2 ^ shift) (Nat.pos_of_ne_zero hd)
  have hfirst := hz.le_of_lt_succ hunits (hzle.trans_lt hlt)
  have hvalue : (0 : ℚ) ≤ (n * 2 ^ shift / d : ℕ) * 2 ^ (-(shift : ℤ)) := by positivity
  rw [← Int.cast_natCast (n * 2 ^ shift / d), ← Dyadic.toRat_ofIntWithPrec_eq_mul_two_pow]
    at hfirst hvalue
  rw [hratio]
  exact (truncates_cut hw _).greatest hvalue hz hfirst

theorem truncates_ratio (hw : 1 ≤ w) {n : ℤ} {d : ℕ} (hn : n ≠ 0) (hd : d ≠ 0) :
    Truncates w (n / d) (ratio w n d) := by
  obtain ⟨m, rfl | rfl⟩ := n.eq_nat_or_neg
  · rw [Int.cast_natCast]
    exact truncates_ratio_natCast hw (by omega) hd
  · rw [ratio_neg, Int.cast_neg, Int.cast_natCast, neg_div]
    exact (truncates_ratio_natCast hw (by omega) hd).neg

theorem toRat_shiftRight (x : Dyadic) (j : ℤ) : (x >>> j).toRat = x.toRat * 2 ^ (-j) := by
  cases x with
  | zero => exact (zero_mul _).symm
  | ofOdd n k hn =>
    show (Dyadic.ofOdd n (k + j) hn).toRat = _
    rw [Dyadic.toRat_ofOdd_eq_mul_two_pow, Dyadic.toRat_ofOdd_eq_mul_two_pow, neg_add,
      zpow_add₀ (by norm_num), mul_assoc]

theorem Fits.shiftRight (h : Fits w x) (j : ℤ) : Fits w (x >>> j) := by
  obtain ⟨n, k, hn, rfl⟩ := h
  refine ⟨n, k + j, hn, ?_⟩
  rw [← Dyadic.toRat_inj, toRat_shiftRight, Dyadic.toRat_ofIntWithPrec_eq_mul_two_pow,
    Dyadic.toRat_ofIntWithPrec_eq_mul_two_pow, neg_add, zpow_add₀ (by norm_num), mul_assoc]

theorem Truncates.shiftRight (h : Truncates w q y) (j : ℤ) :
    Truncates w (q * 2 ^ (-j)) (y >>> j) where
  fits := h.fits.shiftRight j
  le := by
    rw [toRat_shiftRight, abs_mul, abs_mul]
    exact mul_le_mul_of_nonneg_right h.le (abs_nonneg _)
  sign := by
    rw [toRat_shiftRight, mul_mul_mul_comm]
    exact mul_nonneg h.sign (mul_self_nonneg _)
  farthest x hx hle := by
    have hback := h.farthest (x >>> (-j)) (hx.shiftRight (-j))
    have hpow : (0 : ℚ) < 2 ^ j := by positivity
    rw [abs_mul, zpow_neg, abs_inv, abs_of_pos hpow, ← div_eq_mul_inv, le_div_iff₀ hpow] at hle
    rw [toRat_shiftRight, abs_mul, neg_neg, abs_of_pos hpow] at hback
    rw [toRat_shiftRight, abs_mul, zpow_neg, abs_inv, abs_of_pos hpow, ← div_eq_mul_inv,
      le_div_iff₀ hpow]
    exact hback hle

/-- The sign of the divisor goes to the dividend. -/
theorem mul_sign_div_natAbs (n m : ℤ) : ((n * m.sign : ℤ) : ℚ) / m.natAbs = n / m := by
  rcases lt_trichotomy m 0 with hm | rfl | hm
  · rw [Int.sign_eq_neg_one_of_neg hm, Nat.cast_natAbs, abs_of_neg hm, mul_neg_one, Int.cast_neg,
      Int.cast_neg, neg_div_neg_eq]
  · simp
  · rw [Int.sign_eq_one_of_pos hm, Nat.cast_natAbs, abs_of_pos hm, mul_one]

/-- A quotient is cut toward zero. -/
theorem truncates_div (hw : 1 ≤ w) (x : Dyadic) (hy : y ≠ 0) :
    Truncates w (x.toRat / y.toRat) (div w x y) := by
  cases y with
  | zero => exact absurd rfl hy
  | ofOdd m l hm =>
    cases x with
    | zero =>
      show Truncates w (Dyadic.toRat 0 / _) 0
      rw [Dyadic.toRat_zero, zero_div]
      exact .zero w
    | ofOdd n k hn =>
      have hfactor : n * m.sign ≠ 0 :=
        mul_ne_zero (by omega) (mt Int.sign_eq_zero_iff_zero.1 (by omega))
      have hratio := truncates_ratio hw hfactor (d := m.natAbs) (by omega)
      have hvalue : (Dyadic.ofOdd n k hn).toRat / (Dyadic.ofOdd m l hm).toRat =
          ((n * m.sign : ℤ) : ℚ) / m.natAbs * 2 ^ (-(k - l)) := by
        rw [Dyadic.toRat_ofOdd_eq_mul_two_pow, Dyadic.toRat_ofOdd_eq_mul_two_pow,
          mul_sign_div_natAbs, mul_div_mul_comm, ← zpow_sub₀ (by norm_num),
          show -k - -l = -(k - l) by omega]
      rw [hvalue]
      exact hratio.shiftRight (k - l)

/-! ## Integer parts -/

theorem floorInt_eq_floor (x : Dyadic) : floorInt x = ⌊x.toRat⌋ := by
  cases x with
  | zero => exact (Int.floor_zero (R := ℚ)).symm
  | ofOdd n k hn =>
    rw [Dyadic.toRat_ofOdd_eq_mul_two_pow]
    unfold floorInt
    dsimp only
    split
    · next hk =>
      obtain ⟨j, hj⟩ := Int.eq_ofNat_of_zero_le (show 0 ≤ -k by omega)
      rw [hj, Int.toNat_natCast, zpow_natCast, Nat.pow_eq]
      exact_mod_cast (Int.floor_intCast (R := ℚ) (n * (2 ^ j : ℕ))).symm
    · next hk =>
      obtain ⟨j, rfl⟩ := Int.eq_ofNat_of_zero_le (show 0 ≤ k by omega)
      have hfloor := Rat.floor_intCast_div_natCast n (2 ^ j)
      rw [zpow_neg, zpow_natCast, ← div_eq_mul_inv, Int.toNat_natCast, Nat.pow_eq,
        Int.fdiv_eq_ediv_of_nonneg _ (by positivity), ← hfloor]
      push_cast
      rfl

theorem toInt_eq_floor (hx : 0 ≤ x.toRat) : toInt x = ⌊x.toRat⌋ := by
  rw [← floorInt_eq_floor]
  cases x with
  | zero => rfl
  | ofOdd n k hn =>
    have hn0 : 0 ≤ n := by
      rw [Dyadic.toRat_ofOdd_eq_mul_two_pow] at hx
      exact_mod_cast nonneg_of_mul_nonneg_left hx (by positivity)
    unfold toInt floorInt
    dsimp only
    rw [Int.tdiv_eq_ediv_of_nonneg hn0, Int.fdiv_eq_ediv_of_nonneg _ (by positivity)]

theorem toInt_neg (x : Dyadic) : toInt (-x) = -toInt x := by
  cases x with
  | zero => rfl
  | ofOdd n k hn =>
    rw [Dyadic.neg_ofOdd]
    unfold toInt
    dsimp only
    split
    · rw [neg_mul]
    · rw [Int.neg_tdiv]

theorem abs_toInt_le (x : Dyadic) : |(toInt x : ℚ)| ≤ |x.toRat| := by
  have hnonneg : ∀ {y : Dyadic}, 0 ≤ y.toRat → |(toInt y : ℚ)| ≤ |y.toRat| := by
    intro y hy
    have hfloor : (0 : ℚ) ≤ ⌊y.toRat⌋ := by exact_mod_cast Int.floor_nonneg.2 hy
    rw [toInt_eq_floor hy, abs_of_nonneg hfloor, abs_of_nonneg hy]
    exact Int.floor_le _
  rcases le_total 0 x.toRat with hx | hx
  · exact hnonneg hx
  · have hneg := hnonneg (y := -x) (by rw [Dyadic.toRat_neg]; exact neg_nonneg.2 hx)
    rwa [toInt_neg, Dyadic.toRat_neg, Int.cast_neg, abs_neg, abs_neg] at hneg

theorem exists_ofInt_of_isInteger (h : isInteger x = true) : ∃ i, x = .ofInt i := by
  cases x with
  | zero => exact ⟨0, rfl⟩
  | ofOdd n k hn =>
    have hk : k ≤ 0 := of_decide_eq_true h
    obtain ⟨j, hj⟩ := Int.eq_ofNat_of_zero_le (show 0 ≤ -k by omega)
    refine ⟨n * 2 ^ j, ?_⟩
    rw [← Dyadic.toRat_inj, toRat_ofInt, Dyadic.toRat_ofOdd_eq_mul_two_pow, hj, zpow_natCast]
    push_cast
    rfl

theorem trunc_eq_ofInt (x : Dyadic) : trunc x = .ofInt (toInt x) := by
  unfold trunc
  split
  · next hinteger =>
    obtain ⟨i, rfl⟩ := exists_ofInt_of_isInteger hinteger
    rw [toInt_ofInt]
  · rfl

theorem floor_eq_ofInt (x : Dyadic) : floor x = .ofInt ⌊x.toRat⌋ := by
  unfold floor
  split
  · next hinteger =>
    obtain ⟨i, rfl⟩ := exists_ofInt_of_isInteger hinteger
    rw [toRat_ofInt, Int.floor_intCast]
  · rw [floorInt_eq_floor]

theorem round_natCast (n : ℕ) : round (.ofInt n) = .ofInt n := by
  have hnonneg : ¬Dyadic.ofInt n < 0 := by
    rw [← Dyadic.toRat_lt_toRat_iff, toRat_ofInt, Dyadic.toRat_zero, Int.cast_natCast]
    exact not_lt.2 (Nat.cast_nonneg n)
  have hfloor : ⌊(n : ℚ) + 1 / 2⌋ = n := by
    rw [Int.floor_natCast_add]
    norm_num
  unfold round
  dsimp only
  rw [if_neg hnonneg, floor_eq_ofInt, Dyadic.toRat_add, toRat_ofInt, Int.cast_natCast,
    Dyadic.toRat_ofIntWithPrec_eq_mul_two_pow, Int.cast_one, one_mul, zpow_neg_one, ← one_div,
    hfloor]

/-- Truncation does not cross the integer below a quotient, because this integer has few bits. -/
theorem Truncates.toInt_eq_natDiv (hw : 1 ≤ w) {m d : ℕ} (h : Truncates w (m / d) y) (hd : d ≠ 0)
    (hm : m ≤ 2 ^ w) : toInt y = (m / d : ℕ) := by
  have hdpos : (0 : ℚ) < d := by exact_mod_cast Nat.pos_of_ne_zero hd
  have hq : (0 : ℚ) ≤ m / d := by positivity
  have hy := h.nonneg hq
  have hfits : Fits w (.ofInt (m / d : ℕ)) :=
    fits_ofInt hw (by rw [Int.natAbs_natCast]; exact (Nat.div_le_self m d).trans hm)
  have hle : ((m / d : ℕ) : ℚ) ≤ m / d := by
    rw [le_div_iff₀ hdpos]
    exact_mod_cast Nat.div_mul_le_self m d
  have hlt : (m / d : ℚ) < (m / d : ℕ) + 1 := by
    rw [div_lt_iff₀ hdpos, mul_comm]
    exact_mod_cast Nat.lt_mul_div_succ m (Nat.pos_of_ne_zero hd)
  have hbelow := h.greatest hq hfits (by rw [toRat_ofInt, Int.cast_natCast]; exact hle)
  rw [toRat_ofInt, Int.cast_natCast] at hbelow
  have habove := h.le
  rw [abs_of_nonneg hy, abs_of_nonneg hq] at habove
  rw [toInt_eq_floor hy, Int.floor_eq_iff, Int.cast_natCast]
  exact ⟨hbelow, habove.trans_lt hlt⟩

theorem Truncates.toInt_eq_tdiv (hw : 1 ≤ w) {a b : ℤ} (h : Truncates w (a / b) y) (hb : b ≠ 0)
    (ha : a.natAbs ≤ 2 ^ w) : toInt y = a.tdiv b := by
  have hneg := h.neg
  obtain ⟨m, rfl | rfl⟩ := a.eq_nat_or_neg <;> obtain ⟨d, rfl | rfl⟩ := b.eq_nat_or_neg <;>
    simp only [Int.cast_neg, Int.cast_natCast, neg_div, div_neg, neg_neg, Int.natAbs_neg,
      Int.natAbs_natCast, neg_ne_zero, Nat.cast_ne_zero] at h hneg ha hb
  · exact h.toInt_eq_natDiv hw hb ha
  · rw [Int.tdiv_neg, eq_neg_iff_add_eq_zero, ← neg_eq_iff_add_eq_zero, ← toInt_neg]
    exact hneg.toInt_eq_natDiv hw hb ha
  · rw [Int.neg_tdiv, eq_neg_iff_add_eq_zero, ← neg_eq_iff_add_eq_zero, ← toInt_neg]
    exact hneg.toInt_eq_natDiv hw hb ha
  · rw [Int.neg_tdiv, Int.tdiv_neg, neg_neg]
    exact h.toInt_eq_natDiv hw hb ha

/-- The integer part of a cut quotient of integers is their quotient. -/
theorem trunc_div_ofInt (hw : 1 ≤ w) {a b : ℤ} (ha : a.natAbs ≤ 2 ^ w) (hb : b ≠ 0) :
    trunc (div w (.ofInt a) (.ofInt b)) = .ofInt (a.tdiv b) := by
  have h := truncates_div hw (.ofInt a) (y := .ofInt b) fun hzero => hb (ofInt_inj.1 hzero)
  rw [toRat_ofInt, toRat_ofInt] at h
  rw [trunc_eq_ofInt, h.toInt_eq_tdiv hw hb ha]

/-- A quotient that is an integer of few bits is exact. -/
theorem div_ofInt_of_mul (hw : 1 ≤ w) {i j : ℤ} (hi : i.natAbs ≤ 2 ^ w) (hj : j ≠ 0) :
    div w (.ofInt (i * j)) (.ofInt j) = .ofInt i := by
  have h := truncates_div hw (.ofInt (i * j)) (y := .ofInt j) fun hzero => hj (ofInt_inj.1 hzero)
  have hvalue : (Dyadic.ofInt (i * j)).toRat / (Dyadic.ofInt j).toRat = (Dyadic.ofInt i).toRat := by
    rw [toRat_ofInt, toRat_ofInt, toRat_ofInt, Int.cast_mul]
    exact mul_div_cancel_right₀ _ (by exact_mod_cast hj)
  rw [hvalue] at h
  exact h.eq_of_fits (fits_ofInt hw hi)

/-! ## Products and differences of integers -/

theorem mul_ofInt (hw : 1 ≤ w) {i j : ℤ} (h : (i * j).natAbs ≤ 2 ^ w) :
    mul w (.ofInt i) (.ofInt j) = .ofInt (i * j) := by
  have hproduct : Dyadic.ofInt i * Dyadic.ofInt j = .ofInt (i * j) := by
    rw [← Dyadic.toRat_inj, Dyadic.toRat_mul, toRat_ofInt, toRat_ofInt, toRat_ofInt, Int.cast_mul]
  unfold mul
  rw [hproduct, (fits_ofInt hw h).cut_eq]

/-- The remainder of integers is the one that goes with the quotient toward zero. -/
theorem rem_ofInt (hw : 1 ≤ w) {a b : ℤ} (ha : a.natAbs ≤ 2 ^ w) (hb : b ≠ 0) :
    rem w (.ofInt a) (.ofInt b) = .ofInt (a.tmod b) := by
  have hproduct : (a.tdiv b * b).natAbs ≤ 2 ^ w := by
    rw [Int.natAbs_mul, Int.natAbs_tdiv]
    exact (Nat.div_mul_le_self _ _).trans ha
  have hrest : a + -(a.tdiv b * b) = a.tmod b := by
    rw [Int.tmod_def, mul_comm, sub_eq_add_neg]
  have hsum : (a + -(a.tdiv b * b)).natAbs ≤ 2 ^ w := by
    rw [hrest, Int.natAbs_tmod]
    exact (Nat.mod_le _ _).trans ha
  unfold rem sub
  rw [trunc_div_ofInt hw ha hb, mul_ofInt hw hproduct, neg_ofInt,
    add_ofInt hw ha (by rwa [Int.natAbs_neg]) hsum, hrest]

end Binary

/-! ## Remainders -/

namespace Number

/-- The number `r` is what is left of `a` after taking away a multiple of `b`: it is less than `b`
and has the sign of `a`. -/
structure IsRemainder (a b r : ℤ) : Prop where
  lt : |r| < |b|
  sign : r = 0 ∨ r.sign = a.sign
  dvd : b ∣ a - r

theorem isRemainder_tmod (a : ℤ) {b : ℤ} (hb : b ≠ 0) : IsRemainder a b (a.tmod b) where
  lt := by
    rw [Int.abs_eq_natAbs, Int.abs_eq_natAbs, Int.natAbs_tmod]
    exact_mod_cast Nat.mod_lt _ (Int.natAbs_pos.2 hb)
  sign := by
    rw [Int.sign_tmod]
    split
    · next hdvd => exact .inl (Int.tmod_eq_zero_of_dvd hdvd)
    · exact .inr rfl
  dvd := by
    rw [Int.tmod_def, sub_sub_cancel]
    exact dvd_mul_right b _

theorem IsRemainder.nonneg {a b r : ℤ} (h : IsRemainder a b r) (ha : 0 ≤ a) : 0 ≤ r := by
  rcases h.sign with hr | hr
  · exact hr.ge
  · exact Int.sign_nonneg_iff.1 (hr ▸ Int.sign_nonneg_iff.2 ha)

theorem IsRemainder.nonpos {a b r : ℤ} (h : IsRemainder a b r) (ha : a ≤ 0) : r ≤ 0 := by
  rcases h.sign with hr | hr
  · exact hr.le
  · exact Int.sign_nonpos_iff.1 (hr ▸ Int.sign_nonpos_iff.2 ha)

/-- Remainders on the same side of zero differ by less than the divisor. -/
theorem IsRemainder.unique {a b r s : ℤ} (hr : IsRemainder a b r) (hs : IsRemainder a b s) :
    r = s := by
  have hdvd : |b| ∣ r - s := by
    rw [abs_dvd, show r - s = a - s - (a - r) by ring]
    exact dvd_sub hs.dvd hr.dvd
  have hlt : |r - s| < |b| := by
    have hrlt := abs_lt.1 hr.lt
    have hslt := abs_lt.1 hs.lt
    rw [abs_lt]
    rcases le_total 0 a with ha | ha
    · have := hr.nonneg ha
      have := hs.nonneg ha
      omega
    · have := hr.nonpos ha
      have := hs.nonpos ha
      omega
  exact sub_eq_zero.1 (Int.eq_zero_of_abs_lt_dvd hdvd hlt)

theorem rem_of_real (w : Nat) (x : Dyadic) {y : Dyadic} (hy : y ≠ 0) :
    rem w (ofReal x) (ofReal y) = .ok (ofReal (Binary.rem w x y)) :=
  if_neg hy

/-- **Remainders of integers.** At every precision the remainder of an integer of the working width
fails exactly if the divisor is zero, and then with a division by zero.  Else it is the one integer
that is less than the divisor, has the sign of the dividend and differs from it by a multiple of the
divisor. -/
theorem remainder_of_integers (p : Precision) (a b : ℤ) (ha : |a| < 2 ^ p.bits) :
    (∀ fault, rem p.bits (.ofInt a) (.ofInt b) = .error fault ↔
      b = 0 ∧ fault = .eval .divisionByZero) ∧
    (b ≠ 0 → ∃ r, rem p.bits (.ofInt a) (.ofInt b) = .ok (.ofInt r) ∧ IsRemainder a b r ∧
      ∀ s, IsRemainder a b s → s = r) := by
  have hbits : a.natAbs ≤ 2 ^ p.bits := by
    rw [Int.abs_eq_natAbs] at ha
    exact_mod_cast ha.le
  by_cases hb : b = 0
  · subst hb
    have hrem : rem p.bits (.ofInt a) (.ofInt 0) = .error (.eval .divisionByZero) := rfl
    refine ⟨fun fault => ?_, fun h => absurd rfl h⟩
    rw [hrem, Except.error.injEq, eq_comm, and_iff_right rfl]
  · have hdivisor : Dyadic.ofInt b ≠ 0 := fun hzero => hb (Binary.ofInt_inj.1 hzero)
    have hrem : rem p.bits (.ofInt a) (.ofInt b) = .ok (.ofInt (a.tmod b)) := by
      rw [ofInt, ofInt, rem_of_real p.bits _ hdivisor, Binary.rem_ofInt p.bits_pos hbits hb]
      rfl
    have hspec := isRemainder_tmod a hb
    refine ⟨fun fault => ?_, fun _ => ⟨a.tmod b, hrem, hspec, fun s hs => hs.unique hspec⟩⟩
    rw [hrem]
    exact iff_of_false nofun fun h => hb h.1

/-- The quotient is less than an integer by so little that the next bit would round it up. -/
theorem remainder_of_integers_below_quotient :
    |(2 - 2 ^ 134 : ℤ)| < 2 ^ Precision.standard.bits ∧
      rem Precision.standard.bits (.ofInt (2 - 2 ^ 134)) (.ofInt (2 ^ 67 + 1)) =
        .ok (.ofInt (-2 ^ 67)) := by
  have hwidth : |(2 - 2 ^ 134 : ℤ)| < 2 ^ Precision.standard.bits := by decide +kernel
  have hremainder : IsRemainder (2 - 2 ^ 134) (2 ^ 67 + 1) (-2 ^ 67) :=
    ⟨by decide +kernel, by decide +kernel, by decide +kernel⟩
  obtain ⟨r, hrem, -, hunique⟩ :=
    (remainder_of_integers .standard (2 - 2 ^ 134) (2 ^ 67 + 1) hwidth).2 (by decide)
  rw [hunique _ hremainder]
  exact ⟨hwidth, hrem⟩

end Number

end Reckoner
