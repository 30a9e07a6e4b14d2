import Mathlib.Data.Nat.Log
import Mathlib.NumberTheory.Zsqrtd.GaussianInt
import Reckoner.Proofs.Number.Quotient

/-!
# Powers with integer exponents

1. The half of an exponent is a cut quotient without its fraction.  It is at most half as large, so
   the recursion on it (`Number.powerWithin`) ends, and it fails only by dividing by zero
   (`Number.fault_of_powerInt`).
2. Half of an exponent of the working width is exact, and the recursion on it squares as the one on
   exact integers does (`Number.powerWithin_ofInt`).
3. Products of Gaussian integers are exact as long as the product of their sizes `|re| + |im|` has
   at most `w` bits (`Number.mul_ofGaussian`).  Sizes do not grow faster than powers, so a power is
   exact if the power of the size is (`Number.powers_of_integers`).
-/

namespace Reckoner.Number

variable {w : Nat} {base : Number}

/-! ## Squaring -/

/-- The `n`-th power by squaring the power to half of `n`.  `first` is the first power, and `step`
goes from an even power to the next one. -/
def powerBySquares (w : Nat) (first : Number) (step : Number → Number) : Nat → Nat → Number
  | 0, _ => 1
  | fuel + 1, n =>
    if n = 0 then 1
    else if n = 1 then first
    else
      let root := powerBySquares w first step fuel (n / 2)
      let square := mul w root root
      if n % 2 = 1 then step square else square

/-- The power with an exact integer as exponent.  Negative powers divide by the base where others
multiply with it. -/
def intPower (w : Nat) (base : Number) (n : ℤ) : Except Fault Number :=
  let fuel := n.natAbs.log2 + 1
  if 0 ≤ n then .ok (powerBySquares w base (fun r => mul w r base) fuel n.natAbs)
  else if base.isZero then .error (.eval .divisionByZero)
  else .ok (powerBySquares w (quotient w 1 base) (fun r => quotient w r base) fuel n.natAbs)

theorem div_of_ne_zero (w : Nat) (a : Number) (hbase : base ≠ 0) :
    div w a base = .ok (quotient w a base) := if_neg (mt (isZero_iff base).1 hbase)

theorem doublePower_zero (w : Nat) (base root : Number) :
    doublePower w base (.ofInt 0) root = .ok (mul w root root) := by
  unfold doublePower
  dsimp only
  rw [if_neg (by decide), if_neg (by decide)]

theorem doublePower_one (w : Nat) (base root : Number) :
    doublePower w base (.ofInt 1) root = .ok (mul w (mul w root root) base) := by
  unfold doublePower
  dsimp only
  rw [if_pos (by decide)]

theorem doublePower_neg_one (w : Nat) (hbase : base ≠ 0) (root : Number) :
    doublePower w base (.ofInt (-1)) root = .ok (quotient w (mul w root root) base) := by
  unfold doublePower
  dsimp only
  rw [if_neg (by decide), if_pos (by decide), div_of_ne_zero w _ hbase]

theorem log2_eq_log2_half {n : ℕ} (hn : 2 ≤ n) : n.log2 = (n / 2).log2 + 1 := by
  rw [Nat.log2_def, if_pos hn]

theorem powerBySquares_double (w : Nat) (first : Number) (step : Number → Number) {n : ℕ}
    (hn : 2 ≤ n) :
    powerBySquares w first step (n.log2 + 1) n =
      let root := powerBySquares w first step ((n / 2).log2 + 1) (n / 2)
      if n % 2 = 1 then step (mul w root root) else mul w root root := by
  rw [powerBySquares, if_neg (by omega), if_neg (by omega), log2_eq_log2_half hn]

theorem intPower_natCast (w : Nat) (base : Number) (n : ℕ) :
    intPower w base n = .ok (powerBySquares w base (fun r => mul w r base) (n.log2 + 1) n) := by
  unfold intPower
  rw [if_pos (Int.natCast_nonneg n), Int.natAbs_natCast]

theorem intPower_of_zero (w : Nat) {n : ℤ} (hn : n < 0) :
    intPower w 0 n = .error (.eval .divisionByZero) := by
  unfold intPower
  rw [if_neg (by omega)]
  rfl

theorem intPower_neg (w : Nat) (hbase : base ≠ 0) {n : ℕ} (hn : n ≠ 0) :
    intPower w base (-n) = .ok (powerBySquares w (quotient w 1 base) (fun r => quotient w r base)
      (n.log2 + 1) n) := by
  unfold intPower
  rw [if_neg (by omega), if_neg (mt (isZero_iff base).1 hbase), Int.natAbs_neg, Int.natAbs_natCast]

/-! ## Recursion on the exponent -/

/-- The half of an integer is an integer that is at most half as large, at any width. -/
theorem exists_half (hw : 1 ≤ w) (n : ℤ) :
    ∃ m : ℤ, Binary.trunc (Binary.div w (.ofInt n) (.ofInt 2)) = .ofInt m ∧
      m.natAbs ≤ n.natAbs / 2 := by
  refine ⟨_, Binary.trunc_eq_ofInt _, ?_⟩
  have hhalf := Binary.truncates_div hw (.ofInt n) (y := .ofInt 2) (by decide)
  have hle := (Binary.abs_toInt_le _).trans hhalf.le
  have htwo : |((2 : ℤ) : ℚ)| = 2 := by norm_num
  rw [Binary.toRat_ofInt, Binary.toRat_ofInt, abs_div, htwo, le_div_iff₀ (by norm_num)] at hle
  have hdouble : |Binary.toInt (Binary.div w (.ofInt n) (.ofInt 2))| * 2 ≤ |n| := by
    exact_mod_cast hle
  rw [Int.abs_eq_natAbs, Int.abs_eq_natAbs] at hdouble
  omega

theorem fault_of_div {a : Number} {fault : Fault} (h : div w a base = .error fault) :
    fault = .eval .divisionByZero := by
  unfold div at h
  split at h <;> cases h
  rfl

theorem fault_of_doublePower {rest : Dyadic} {root : Number} {fault : Fault}
    (h : doublePower w base rest root = .error fault) : fault = .eval .divisionByZero := by
  unfold doublePower at h
  dsimp only at h
  split at h
  · cases h
  · split at h
    · exact fault_of_div h
    · cases h

theorem powerWithin_double (w : Nat) (base : Number) (depth : ℕ) {n : ℤ} (hn : 2 ≤ n.natAbs) :
    powerWithin w base (depth + 1) (.ofInt n) =
      (powerWithin w base depth (Binary.trunc (Binary.div w (.ofInt n) (.ofInt 2)))).map
        (· >>= doublePower w base (Binary.rem w (.ofInt n) (.ofInt 2))) := by
  have h0 : Dyadic.ofInt n ≠ 0 := fun h => by
    have : n = 0 := Binary.ofInt_inj.1 h
    omega
  have h1 : Dyadic.ofInt n ≠ 1 := fun h => by
    have : n = 1 := Binary.ofInt_inj.1 h
    omega
  have hminus : Dyadic.ofInt n ≠ -1 := fun h => by
    have : n = -1 := Binary.ofInt_inj.1 (h.trans (Binary.neg_ofInt 1))
    omega
  rw [powerWithin, if_neg h0, if_neg h1, if_neg hminus]
  rfl

theorem powerWithin_neg_one (w : Nat) (base : Number) (depth : ℕ) :
    powerWithin w base (depth + 1) (.ofInt (-1)) = some (div w 1 base) := by
  rw [powerWithin, if_neg (by decide), if_neg (by decide), if_pos (by decide)]

/-- The recursion ends after as many calls as the exponent has bits, at any width, and it fails only
by dividing by zero. -/
theorem exists_powerWithin (hw : 1 ≤ w) (base : Number) {depth : ℕ} {n : ℤ}
    (hdepth : n.natAbs.log2 < depth) : ∃ result, powerWithin w base depth (.ofInt n) = some result ∧
      ∀ fault, result = .error fault → fault = .eval .divisionByZero := by
  induction depth generalizing n with
  | zero => omega
  | succ depth ih =>
    by_cases hlarge : 2 ≤ n.natAbs
    · obtain ⟨m, hhalf, hm⟩ := exists_half hw n
      have hlog : m.natAbs.log2 < depth := by
        have hmono : m.natAbs.log2 ≤ (n.natAbs / 2).log2 := by
          rw [Nat.log2_eq_log_two, Nat.log2_eq_log_two]
          exact Nat.log_mono_right hm
        have := log2_eq_log2_half hlarge
        omega
      obtain ⟨result, hresult, hfault⟩ := ih hlog
      rw [powerWithin_double w base depth hlarge, hhalf, hresult]
      refine ⟨_, rfl, fun fault h => ?_⟩
      cases result with
      | error fault' => exact hfault fault h
      | ok root => exact fault_of_doublePower h
    · obtain rfl | rfl | rfl : n = 0 ∨ n = 1 ∨ n = -1 := by omega
      · exact ⟨_, rfl, nofun⟩
      · exact ⟨_, rfl, nofun⟩
      · exact ⟨_, powerWithin_neg_one w base depth, fun fault => fault_of_div⟩

theorem log2_lt_powerDepth (n : ℤ) : n.natAbs.log2 < powerDepth (.ofInt n) := by
  rw [powerDepth, Binary.toInt_ofInt]
  exact Nat.lt_succ_self _

/-- A power with an exponent without a fraction fails only by dividing by zero. -/
theorem fault_of_powerInt (hw : 1 ≤ w) {x : Dyadic} (hx : Binary.isInteger x = true) {fault : Fault}
    (h : powerInt w base x = .error fault) : fault = .eval .divisionByZero := by
  obtain ⟨n, rfl⟩ := Binary.exists_ofInt_of_isInteger hx
  obtain ⟨result, hresult, hfault⟩ := exists_powerWithin hw base (log2_lt_powerDepth n)
  rw [powerInt, hresult, Option.getD_some] at h
  exact hfault fault h

/-- A power comes from the power with half of the exponent. -/
theorem intPower_double (w : Nat) (base : Number) {n : ℤ} (hn : 2 ≤ n.natAbs) :
    intPower w base (n.tdiv 2) >>= doublePower w base (.ofInt (n.tmod 2)) = intPower w base n := by
  obtain ⟨m, rfl | rfl⟩ := n.eq_nat_or_neg
  · rw [Int.natAbs_natCast] at hn
    have hhalf : (m : ℤ).tdiv 2 = (m / 2 : ℕ) := rfl
    have hrest : (m : ℤ).tmod 2 = (m % 2 : ℕ) := rfl
    rw [hhalf, hrest, intPower_natCast, intPower_natCast, powerBySquares_double w _ _ hn]
    show doublePower w base _ _ = _
    rcases Nat.mod_two_eq_zero_or_one m with hmod | hmod
    · rw [hmod, if_neg (by decide)]
      exact doublePower_zero w base _
    · rw [hmod, if_pos rfl]
      exact doublePower_one w base _
  · rw [Int.natAbs_neg, Int.natAbs_natCast] at hn
    have hhalf : (-(m : ℤ)).tdiv 2 = -(m / 2 : ℕ) := Int.neg_tdiv _ _
    have hrest : (-(m : ℤ)).tmod 2 = -(m % 2 : ℕ) := Int.neg_tmod _ _
    rw [hhalf, hrest]
    by_cases hbase : base = 0
    · subst hbase
      rw [intPower_of_zero w (by omega), intPower_of_zero w (by omega)]
      rfl
    · rw [intPower_neg w hbase (by omega), intPower_neg w hbase (by omega),
        powerBySquares_double w _ _ hn]
      show doublePower w base _ _ = _
      rcases Nat.mod_two_eq_zero_or_one m with hmod | hmod
      · rw [hmod, if_neg (by decide)]
        exact doublePower_zero w base _
      · rw [hmod, if_pos rfl]
        exact doublePower_neg_one w hbase _

/-- On an exponent of the working width the recursion ends after as many calls as the exponent has
bits. -/
theorem powerWithin_ofInt (hw : 1 ≤ w) (base : Number) {depth : ℕ} {n : ℤ}
    (hn : n.natAbs < 2 ^ w) (hdepth : n.natAbs.log2 < depth) :
    powerWithin w base depth (.ofInt n) = some (intPower w base n) := by
  induction depth generalizing n with
  | zero => omega
  | succ depth ih =>
    by_cases hlarge : 2 ≤ n.natAbs
    · have hlog := log2_eq_log2_half hlarge
      have hhalf : (n.tdiv 2).natAbs = n.natAbs / 2 := Int.natAbs_tdiv n 2
      rw [powerWithin_double w base depth hlarge, Binary.trunc_div_ofInt hw hn.le (by decide),
        Binary.rem_ofInt hw hn.le (by decide), ih (by omega) (by rw [hhalf]; omega),
        Option.map_some, intPower_double w base hlarge]
    · obtain rfl | rfl | rfl : n = 0 ∨ n = 1 ∨ n = -1 := by omega
      · rfl
      · rfl
      · exact powerWithin_neg_one w base depth

/-! ## Gaussian integers -/

/-- A Gaussian integer as a number. -/
def ofGaussian (z : GaussianInt) : Number := ⟨.ofInt z.re, .ofInt z.im⟩

/-- The sum of the absolute values of the parts. -/
def gaussianSize (z : GaussianInt) : ℕ := z.re.natAbs + z.im.natAbs

theorem natAbs_re_le (z : GaussianInt) : z.re.natAbs ≤ gaussianSize z := Nat.le_add_right _ _

theorem natAbs_im_le (z : GaussianInt) : z.im.natAbs ≤ gaussianSize z := Nat.le_add_left _ _

theorem re_mul_eq (x y : GaussianInt) : (x * y).re = x.re * y.re - x.im * y.im := by
  rw [Zsqrtd.re_mul]
  ring

theorem gaussianSize_mul_le (x y : GaussianInt) :
    gaussianSize (x * y) ≤ gaussianSize x * gaussianSize y := by
  have hre := Int.natAbs_sub_le (x.re * y.re) (x.im * y.im)
  have him := Int.natAbs_add_le (x.re * y.im) (x.im * y.re)
  rw [← re_mul_eq] at hre
  rw [← Zsqrtd.im_mul] at him
  calc gaussianSize (x * y)
      ≤ (x.re * y.re).natAbs + (x.im * y.im).natAbs +
          ((x.re * y.im).natAbs + (x.im * y.re).natAbs) := Nat.add_le_add hre him
    _ = gaussianSize x * gaussianSize y := by
      simp only [gaussianSize, Int.natAbs_mul]
      ring

theorem gaussianSize_pow_le (z : GaussianInt) (n : ℕ) :
    gaussianSize (z ^ n) ≤ gaussianSize z ^ n := by
  induction n with
  | zero => exact le_refl 1
  | succ n ih =>
    rw [pow_succ, pow_succ]
    exact (gaussianSize_mul_le _ _).trans (Nat.mul_le_mul_right _ ih)

theorem mul_ofGaussian (hw : 1 ≤ w) {x y : GaussianInt}
    (h : gaussianSize x * gaussianSize y ≤ 2 ^ w) :
    mul w (ofGaussian x) (ofGaussian y) = ofGaussian (x * y) := by
  have hproduct : ∀ {i j : ℤ}, i.natAbs ≤ gaussianSize x → j.natAbs ≤ gaussianSize y →
      (i * j).natAbs ≤ 2 ^ w := by
    intro i j hi hj
    rw [Int.natAbs_mul]
    exact (Nat.mul_le_mul hi hj).trans h
  have hrr := hproduct (natAbs_re_le x) (natAbs_re_le y)
  have hii := hproduct (natAbs_im_le x) (natAbs_im_le y)
  have hri := hproduct (natAbs_re_le x) (natAbs_im_le y)
  have hir := hproduct (natAbs_im_le x) (natAbs_re_le y)
  have hre := (natAbs_re_le (x * y)).trans ((gaussianSize_mul_le x y).trans h)
  have him := (natAbs_im_le (x * y)).trans ((gaussianSize_mul_le x y).trans h)
  rw [re_mul_eq, sub_eq_add_neg] at hre
  rw [Zsqrtd.im_mul] at him
  unfold mul ofGaussian
  dsimp only
  rw [Binary.mul_ofInt hw hrr, Binary.mul_ofInt hw hii, Binary.mul_ofInt hw hri,
    Binary.mul_ofInt hw hir, Binary.add_ofInt hw hri hir him, Binary.sub, Binary.neg_ofInt,
    Binary.add_ofInt hw hrr (by rwa [Int.natAbs_neg]) hre, re_mul_eq, Zsqrtd.im_mul, sub_eq_add_neg]

theorem pow_lt_two_pow (hw : 1 ≤ w) {s m n : ℕ} (hmn : m ≤ n) (h : s ^ n < 2 ^ w) :
    s ^ m < 2 ^ w := by
  rcases Nat.eq_zero_or_pos s with rfl | hs
  · exact (pow_le_one₀ le_rfl (Nat.zero_le 1)).trans_lt (Nat.one_lt_two_pow (by omega))
  · exact (Nat.pow_le_pow_right hs hmn).trans_lt h

theorem powerBySquares_ofGaussian (hw : 1 ≤ w) {z : GaussianInt} {fuel n : ℕ}
    (hfuel : n.log2 < fuel) (h : gaussianSize z ^ n < 2 ^ w) :
    powerBySquares w (ofGaussian z) (fun r => mul w r (ofGaussian z)) fuel n =
      ofGaussian (z ^ n) := by
  induction fuel generalizing n with
  | zero => omega
  | succ fuel ih =>
    rw [powerBySquares]
    by_cases h0 : n = 0
    · subst h0
      rfl
    by_cases h1 : n = 1
    · subst h1
      rw [if_neg h0, if_pos rfl, pow_one]
    have hlog := log2_eq_log2_half (show 2 ≤ n by omega)
    have hdouble : gaussianSize z ^ (n / 2) * gaussianSize z ^ (n / 2) < 2 ^ w := by
      rw [← pow_add]
      exact pow_lt_two_pow hw (by omega) h
    have hsquare : gaussianSize (z ^ (n / 2)) * gaussianSize (z ^ (n / 2)) ≤ 2 ^ w :=
      (Nat.mul_le_mul (gaussianSize_pow_le z _) (gaussianSize_pow_le z _)).trans hdouble.le
    rw [if_neg h0, if_neg h1, ih (by omega) (pow_lt_two_pow hw (by omega) h)]
    dsimp only
    rw [mul_ofGaussian hw hsquare, ← pow_add]
    split
    · next hodd =>
      have hn : n / 2 + n / 2 + 1 = n := by omega
      have hstep : gaussianSize (z ^ (n / 2 + n / 2)) * gaussianSize z ≤ 2 ^ w := by
        refine (Nat.mul_le_mul_right _ (gaussianSize_pow_le z _)).trans ?_
        rw [← pow_succ, hn]
        exact h.le
      rw [mul_ofGaussian hw hstep, ← pow_succ, hn]
    · next heven =>
      rw [show n / 2 + n / 2 = n by omega]

/-! ## All integer exponents -/

theorem power_ofInt (L : Library) (w : Nat) (base : Number) (n : ℤ) :
    power L w base (.ofInt n) = (powerInt w base (.ofInt n)).mapError .fault :=
  if_pos (Binary.isInteger_ofInt n)

/-- An exponent of the working width may as well be an exact integer. -/
theorem powerInt_ofInt (hw : 1 ≤ w) (base : Number) {n : ℤ} (hn : n.natAbs < 2 ^ w) :
    powerInt w base (.ofInt n) = intPower w base n := by
  rw [powerInt, powerWithin_ofInt hw base hn (log2_lt_powerDepth n), Option.getD_some]

/-- Only a negative power of zero fails. -/
theorem intPower_eq_error_iff (w : Nat) (base : Number) (n : ℤ) (fault : Fault) :
    intPower w base n = .error fault ↔ base = 0 ∧ n < 0 ∧ fault = .eval .divisionByZero := by
  obtain ⟨m, rfl | rfl⟩ := n.eq_nat_or_neg
  · rw [intPower_natCast]
    exact iff_of_false nofun fun h => by omega
  · by_cases hm : m = 0
    · subst hm
      exact iff_of_false nofun fun h => absurd h.2.1 (lt_irrefl 0)
    · by_cases hbase : base = 0
      · subst hbase
        rw [intPower_of_zero w (by omega), Except.error.injEq, eq_comm, and_iff_right rfl,
          and_iff_right (by omega)]
      · rw [intPower_neg w hbase hm]
        exact iff_of_false nofun fun h => hbase h.1

/-- **Powers with integer exponents.** At every precision a power of a Gaussian integer is exact if
the same power of the sum of the absolute values of its parts has at most as many bits as the
working width.  For every base and every integer exponent of the working width the recursion on the
exponent ends, the power is what it gives, and it fails, with a division by zero, only if the base
is zero and the exponent negative. -/
theorem powers_of_integers (L : Library) (p : Precision) :
    (∀ (a b : ℤ) (n : ℕ), n < 2 ^ p.bits → (|a| + |b|) ^ n < 2 ^ p.bits →
      power L p.bits (ofGaussian ⟨a, b⟩) (.ofInt n) = .ok (ofGaussian (⟨a, b⟩ ^ n))) ∧
    (∀ (base : Number) (n : ℤ), |n| < 2 ^ p.bits → ∃ result,
      (∀ depth, n.natAbs.log2 < depth →
        powerWithin p.bits base depth (.ofInt n) = some result) ∧
      power L p.bits base (.ofInt n) = result.mapError .fault ∧
      ∀ fault, result = .error fault ↔ base = 0 ∧ n < 0 ∧ fault = .eval .divisionByZero) := by
  have hw : 1 ≤ p.bits := p.bits_pos
  constructor
  · intro a b n hn hsize
    rw [Int.abs_eq_natAbs, Int.abs_eq_natAbs] at hsize
    have hpower := powerBySquares_ofGaussian (z := ⟨a, b⟩) hw (Nat.lt_succ_self n.log2)
      (by exact_mod_cast hsize)
    rw [power_ofInt, powerInt_ofInt hw _ (by exact_mod_cast hn), intPower_natCast, hpower]
    rfl
  · intro base n hn
    rw [Int.abs_eq_natAbs] at hn
    have hn' : n.natAbs < 2 ^ p.bits := by exact_mod_cast hn
    refine ⟨intPower p.bits base n, fun depth hdepth => powerWithin_ofInt hw base hn' hdepth, ?_,
      intPower_eq_error_iff p.bits base n⟩
    rw [power_ofInt, powerInt_ofInt hw base hn']

/-- At the narrowest width: a power that just has few enough bits, the imaginary unit with the least
exponent, and a pole. -/
theorem powers_of_integers_at_the_edge :
    let p : Precision := .digits 1 (by decide)
    p.bits = 31 ∧
      power .plain p.bits (ofGaussian ⟨1, 2⟩) (.ofInt 19) =
        .ok (ofGaussian ⟨-2521451, 3565918⟩) ∧
      power .plain p.bits unit (.ofInt (1 - 2 ^ 31)) = .ok unit ∧
      power .plain p.bits 0 (.ofInt (-3)) = .error (.fault (.eval .divisionByZero)) := by
  intro p
  obtain ⟨hexact, hends⟩ := powers_of_integers .plain p
  refine ⟨by decide, ?_, ?_, ?_⟩
  · have hvalue : (⟨1, 2⟩ : GaussianInt) ^ 19 = ⟨-2521451, 3565918⟩ := by decide +kernel
    rw [← hvalue]
    exact hexact 1 2 19 (by decide) (by decide)
  · obtain ⟨result, hruns, hpower, -⟩ := hends unit (1 - 2 ^ 31) (by decide)
    have hrun : powerWithin p.bits unit 31 (.ofInt (1 - 2 ^ 31)) = some (.ok unit) := by
      decide +kernel
    rw [hruns 31 (by decide +kernel), Option.some.injEq] at hrun
    rw [hpower, hrun]
    rfl
  · obtain ⟨result, -, hpower, hfault⟩ := hends 0 (-3) (by decide)
    rw [hpower, (hfault _).2 ⟨rfl, by decide, rfl⟩]
    rfl

end Reckoner.Number
