import Mathlib.Data.Int.Range
import Reckoner.Binary.Arithmetic
import Reckoner.Proofs.Number.Truncation

/-!
# Integers at a working width

1. Integers of at most `w` bits, and the power of two that follows them, are added and subtracted
   without loss (`Binary.add_ofInt`).
2. A counter that starts and ends among them takes each integer once, in ascending order
   (`Binary.countThrough_ofInt`).
-/

namespace Reckoner.Binary

/-! ## Integers as binary numbers -/

section Integers

variable {i j : Int}

theorem toRat_ofInt (i : Int) : (Dyadic.ofInt i).toRat = i := Dyadic.toRat_intCast i

theorem ofInt_le_ofInt : Dyadic.ofInt i ≤ Dyadic.ofInt j ↔ i ≤ j := by
  rw [← Dyadic.toRat_le_toRat_iff, toRat_ofInt, toRat_ofInt, Int.cast_le]

theorem ofInt_lt_ofInt : Dyadic.ofInt i < Dyadic.ofInt j ↔ i < j := by
  rw [← Dyadic.toRat_lt_toRat_iff, toRat_ofInt, toRat_ofInt, Int.cast_lt]

theorem ofInt_inj : Dyadic.ofInt i = Dyadic.ofInt j ↔ i = j := by
  rw [← Dyadic.toRat_inj, toRat_ofInt, toRat_ofInt, Int.cast_inj]

theorem ofInt_add_ofInt (i j : Int) : Dyadic.ofInt i + Dyadic.ofInt j = .ofInt (i + j) := by
  rw [← Dyadic.toRat_inj, Dyadic.toRat_add, toRat_ofInt, toRat_ofInt, toRat_ofInt, Int.cast_add]

theorem neg_ofInt (i : Int) : -Dyadic.ofInt i = .ofInt (-i) := by
  rw [← Dyadic.toRat_inj, Dyadic.toRat_neg, toRat_ofInt, toRat_ofInt, Int.cast_neg]

theorem ofInt_sub_ofInt (i j : Int) : Dyadic.ofInt i - Dyadic.ofInt j = .ofInt (i - j) := by
  rw [← Dyadic.toRat_inj, Dyadic.toRat_sub, toRat_ofInt, toRat_ofInt, toRat_ofInt, Int.cast_sub]

theorem exists_of_ofInt_eq_ofOdd {n k : Int} {hn : n % 2 = 1}
    (h : Dyadic.ofInt i = .ofOdd n k hn) : ∃ t : Nat, k = -t ∧ i = n * 2 ^ t := by
  have hi : i ≠ 0 := by
    rintro rfl
    cases h
  have hvalue : (i : ℚ) = n * 2 ^ (-k) := by
    rw [← toRat_ofInt, h, Dyadic.toRat_ofOdd_eq_mul_two_pow]
  have hk : k ≤ 0 := by
    unfold Dyadic.ofInt Dyadic.ofIntWithPrec at h
    rw [dif_neg hi] at h
    cases h
    omega
  obtain ⟨t, rfl⟩ : ∃ t : Nat, k = -t := ⟨(-k).toNat, by omega⟩
  refine ⟨t, rfl, ?_⟩
  rw [neg_neg, zpow_natCast] at hvalue
  exact_mod_cast hvalue

@[simp] theorem toInt_ofInt (i : Int) : toInt (.ofInt i) = i := by
  cases hx : Dyadic.ofInt i with
  | zero => exact (ofInt_inj.1 hx).symm
  | ofOdd n k hn =>
    obtain ⟨t, rfl, rfl⟩ := exists_of_ofInt_eq_ofOdd hx
    unfold toInt
    dsimp only
    rw [if_pos (by omega), neg_neg, Int.toNat_natCast]
    rfl

theorem log2_mul_two_pow {n : Nat} (hn : n ≠ 0) (t : Nat) : (n * 2 ^ t).log2 = n.log2 + t := by
  rw [Nat.log2_eq_iff (by positivity), pow_add, Nat.add_right_comm, pow_add]
  exact ⟨Nat.mul_le_mul_right _ (Nat.log2_self_le hn),
    Nat.mul_lt_mul_of_pos_right Nat.lt_log2_self (Nat.two_pow_pos t)⟩

theorem magnitude_ofInt (hi : i ≠ 0) : magnitude (.ofInt i) = i.natAbs.log2 + 1 := by
  cases hx : Dyadic.ofInt i with
  | zero => exact absurd (ofInt_inj.1 hx) hi
  | ofOdd n k hn =>
    obtain ⟨t, rfl, rfl⟩ := exists_of_ofInt_eq_ofOdd hx
    have hn0 : n.natAbs ≠ 0 := by omega
    unfold magnitude
    dsimp only
    rw [Int.natAbs_mul, Int.natAbs_pow, show Int.natAbs 2 = 2 from rfl, log2_mul_two_pow hn0]
    push_cast
    ring

theorem magnitude_neg (x : Dyadic) : magnitude (-x) = magnitude x := by
  cases x with
  | zero => rfl
  | ofOdd n k hn =>
    rw [Dyadic.neg_ofOdd]
    unfold magnitude
    dsimp only
    rw [Int.natAbs_neg]

@[simp] theorem isInteger_ofInt (i : Int) : isInteger (.ofInt i) = true := by
  cases hx : Dyadic.ofInt i with
  | zero => rfl
  | ofOdd n k hn =>
    obtain ⟨t, rfl, -⟩ := exists_of_ofInt_eq_ofOdd hx
    exact decide_eq_true (by omega)

end Integers

/-! ## Exact sums -/

section Exact

variable {w : Nat} {i j : Int}

theorem fits_ofInt (hw : 1 ≤ w) (hi : i.natAbs ≤ 2 ^ w) : Fits w (.ofInt i) := by
  rcases Nat.lt_or_eq_of_le hi with hlt | heq
  · exact ⟨i, 0, hlt, rfl⟩
  · -- the power itself is a single bit far up
    have hpos := Nat.two_pow_pos w
    have hone : i.sign.natAbs < 2 ^ w :=
      (Int.natAbs_sign_of_ne_zero (by omega)).trans_lt (Nat.one_lt_two_pow (by omega))
    refine ⟨i.sign, -w, hone, ?_⟩
    rw [← Dyadic.toRat_inj, toRat_ofInt, Dyadic.toRat_ofIntWithPrec_eq_mul_two_pow, neg_neg,
      zpow_natCast]
    have hsign := Int.sign_mul_natAbs i
    rw [heq] at hsign
    exact_mod_cast hsign.symm

theorem add_eq_cut {x y : Dyadic} (hx : magnitude x - magnitude y ≤ w + windowBits)
    (hy : magnitude y - magnitude x ≤ w + windowBits) : add w x y = cut w (x + y) := by
  unfold add
  by_cases hx0 : x = 0
  · rw [if_pos hx0, hx0, Dyadic.zero_add]
  · by_cases hy0 : y = 0
    · rw [if_neg hx0, if_pos hy0, hy0, Dyadic.add_zero]
    · rw [if_neg hx0, if_neg hy0]
      dsimp only
      rw [if_neg (by omega), if_neg (by omega)]

theorem magnitude_ofInt_nonneg (i : Int) : 0 ≤ magnitude (.ofInt i) := by
  by_cases hi : i = 0
  · subst hi
    exact le_refl 0
  · rw [magnitude_ofInt hi]
    omega

theorem magnitude_ofInt_le (hi : i.natAbs ≤ 2 ^ w) : magnitude (.ofInt i) ≤ w + 1 := by
  by_cases h0 : i = 0
  · subst h0
    show (0 : Int) ≤ _
    omega
  · have hlog : i.natAbs.log2 < w + 1 :=
      (Nat.log2_lt (by omega)).2 (hi.trans_lt (Nat.pow_lt_pow_right (by decide) (by omega)))
    rw [magnitude_ofInt h0]
    omega

/-- Integers are added without loss if they and their sum are at most the power of two that follows
the integers of `w` bits. -/
theorem add_ofInt (hw : 1 ≤ w) (hi : i.natAbs ≤ 2 ^ w) (hj : j.natAbs ≤ 2 ^ w)
    (hsum : (i + j).natAbs ≤ 2 ^ w) : add w (.ofInt i) (.ofInt j) = .ofInt (i + j) := by
  have hwindow : windowBits = 128 := rfl
  have hi' := magnitude_ofInt_le hi
  have hj' := magnitude_ofInt_le hj
  have hi0 := magnitude_ofInt_nonneg i
  have hj0 := magnitude_ofInt_nonneg j
  rw [add_eq_cut (by omega) (by omega), ofInt_add_ofInt]
  exact (fits_ofInt hw hsum).cut_eq

theorem add_ofInt_one (hw : 1 ≤ w) (hlow : -2 ^ w ≤ i) (hhigh : i < 2 ^ w) :
    add w (.ofInt i) 1 = .ofInt (i + 1) := by
  have hpow : (2 : Int) ^ w = (2 ^ w : Nat) := by push_cast; rfl
  have hpos := Nat.two_pow_pos w
  exact @add_ofInt w i 1 hw (by omega) (by omega) (by omega)

theorem magnitude_ofInt_mono {k n : Int} (hk : 0 ≤ k) (h : k ≤ n) :
    magnitude (.ofInt k) ≤ magnitude (.ofInt n) := by
  by_cases hk0 : k = 0
  · subst hk0
    exact magnitude_ofInt_nonneg n
  · have hlog : k.natAbs.log2 ≤ n.natAbs.log2 :=
      (Nat.le_log2 (by omega)).2 ((Nat.log2_self_le (by omega)).trans (by omega))
    rw [magnitude_ofInt hk0, magnitude_ofInt (by omega)]
    omega

/-- A difference that is less than the power of two is not cut, however large the numbers are. -/
theorem sub_ofInt (hw : 1 ≤ w) {n k : Int} (hk : 0 ≤ k) (hle : k ≤ n) (h : n - k < 2 ^ w) :
    sub w (.ofInt n) (.ofInt k) = .ofInt (n - k) := by
  have hpow : (2 : Int) ^ w = (2 ^ w : Nat) := by push_cast; rfl
  have hmono := magnitude_ofInt_mono hk hle
  have hgap : magnitude (.ofInt n) ≤ magnitude (.ofInt k) + w + 2 := by
    by_cases hlow : k < 2 ^ w
    · have hn : n.natAbs ≤ 2 ^ (w + 1) := by omega
      have hmag := magnitude_ofInt_le hn
      have hnonneg := magnitude_ofInt_nonneg k
      omega
    · have hk0 : k ≠ 0 := by
        have := Nat.two_pow_pos w
        omega
      have hn : n.natAbs ≤ 2 ^ (k.natAbs.log2 + 2) := by
        have hself : k.natAbs < 2 ^ (k.natAbs.log2 + 1) := Nat.lt_log2_self
        have hdouble : 2 ^ (k.natAbs.log2 + 2) = 2 * 2 ^ (k.natAbs.log2 + 1) := pow_succ' 2 _
        omega
      have hmag := magnitude_ofInt_le hn
      rw [magnitude_ofInt hk0]
      omega
  have hwindow : windowBits = 128 := rfl
  unfold sub
  rw [add_eq_cut (by rw [magnitude_neg]; omega) (by rw [magnitude_neg]; omega), neg_ofInt,
    ofInt_add_ofInt, ← sub_eq_add_neg]
  exact (fits_ofInt hw (by omega)).cut_eq

/-- A difference that is not less than the power of two is cut to no less. -/
theorem two_pow_le_sub (hw : 1 ≤ w) {n k : Int} (hk : 0 ≤ k) (h : 2 ^ w ≤ n - k) :
    .ofInt (2 ^ w) ≤ sub w (.ofInt n) (.ofInt k) := by
  have hcut : ∀ i : Int, 2 ^ w ≤ i → Dyadic.ofInt (2 ^ w) ≤ cut w (.ofInt i) := by
    intro i hi
    have hpow : (2 : ℚ) ^ (w : Int) ≤ (Dyadic.ofInt i).toRat := by
      rw [toRat_ofInt, zpow_natCast]
      exact_mod_cast hi
    rw [← Dyadic.toRat_le_toRat_iff, toRat_ofInt]
    exact_mod_cast two_pow_le_cut hw hpow
  have hpos : (0 : Int) < 2 ^ w := by positivity
  have hmono := magnitude_ofInt_mono hk (show k ≤ n by omega)
  unfold sub add
  dsimp only
  rw [magnitude_neg, if_neg fun h0 => by rw [show n = 0 from ofInt_inj.1 h0] at h; omega]
  split_ifs with hzero hfar
  · exact hcut n (by omega)
  · exact hcut n (by omega)
  · omega
  · rw [neg_ofInt, ofInt_add_ofInt, ← sub_eq_add_neg]
    exact hcut (n - k) h

end Exact

/-! ## Counting -/

section Counting

universe u v

variable {m : Type u → Type v} [Monad m] {α : Type u} {w : Nat} {stuck : m α}
  {step : Dyadic → α → m α}

theorem range_eq_cons {i j : Int} (h : i < j) : Int.range i j = i :: Int.range (i + 1) j := by
  unfold Int.range
  rw [show (j - i).toNat = (j - (i + 1)).toNat + 1 by omega, List.range_succ_eq_map,
    List.map_cons, List.map_map]
  congr 1
  · simp
  · refine List.map_congr_left fun r _ => ?_
    show i + ((r + 1 : Nat) : Int) = i + 1 + r
    omega

theorem range_eq_nil {i j : Int} (h : j ≤ i) : Int.range i j = [] := by
  unfold Int.range
  rw [show (j - i).toNat = 0 by omega]
  rfl

theorem length_range {i j : Int} (h : i ≤ j) : ((Int.range i j).length : Int) = j - i := by
  unfold Int.range
  rw [List.length_map, List.length_range]
  omega

theorem countUp_ofInt (hw : 1 ≤ w) {last : Int} (hlast : last < 2 ^ w) {fuel : Nat} {i : Int}
    (hlow : -2 ^ w ≤ i) (hfuel : last < i + fuel) (acc : α) :
    countUp w (.ofInt last) stuck step (fuel + 1) (.ofInt i) acc =
      (Int.range i (last + 1)).foldlM (fun acc k => step (.ofInt k) acc) acc := by
  induction fuel generalizing i acc with
  | zero =>
    have hgt : ¬Dyadic.ofInt i ≤ .ofInt last := by
      rw [ofInt_le_ofInt]
      omega
    rw [countUp, if_neg hgt, range_eq_nil (by omega)]
    rfl
  | succ fuel ih =>
    rw [countUp]
    by_cases hle : i ≤ last
    · rw [if_pos (ofInt_le_ofInt.2 hle), add_ofInt_one hw hlow (by omega),
        range_eq_cons (by omega), List.foldlM_cons]
      congr 1
      funext acc
      exact ih (by omega) (by omega) acc
    · rw [if_neg (fun h => hle (ofInt_le_ofInt.1 h)), range_eq_nil (by omega)]
      rfl

theorem stepCount_ofInt (i j : Int) : stepCount (.ofInt i) (.ofInt j) = (j - i + 1).toNat := by
  unfold stepCount
  rw [ofInt_sub_ofInt, toInt_ofInt]

/-- A counter that starts and ends among the integers of `w` bits takes the integers from the first
to the last one, each once, and does not get stuck. -/
theorem countThrough_ofInt (hw : 1 ≤ w) {first last : Int} (hfirst : -2 ^ w ≤ first)
    (hlast : last < 2 ^ w) (acc : α) :
    countThrough w (.ofInt first) (.ofInt last) stuck step acc =
      (Int.range first (last + 1)).foldlM (fun acc k => step (.ofInt k) acc) acc := by
  unfold countThrough
  rw [stepCount_ofInt]
  exact countUp_ofInt hw hlast hfirst (by omega) acc

end Counting

end Reckoner.Binary
