import Mathlib.Data.Nat.Choose.Basic
import Mathlib.Data.Nat.Factorial.Basic
import Reckoner.Proofs.Evaluation.Counting
import Reckoner.Proofs.Number.Quotient

/-!
# Permutations and combinations

1. A permutation is a product of positive integers, so no product on the way is greater than the
   last one (`Evaluation.foldl_mul_ofInt`).
2. On the way to a combination each product is divided by the index of its step.  After step `i` the
   value is the number of ways to choose `i`, so each quotient is exact, and the products grow
   (`Evaluation.foldl_chooseStep_ofInt`).
3. If the last product has at most as many bits as the working width, both are exact
   (`Evaluation.choose_and_perm_are_exact`).
-/

namespace Reckoner.Evaluation

open Builtin (permValue chooseValue)

variable {w : Nat}

/-! ## Permutations -/

/-- The product of the `k` integers up to `n`, from a factor on. -/
theorem foldl_mul_ofInt (hw : 1 ≤ w) {n k : ℕ} (hk : k ≤ n) (r : ℕ)
    (h : r * n.descFactorial k ≤ 2 ^ w) :
    (Int.range (n - k + 1) (n + 1)).foldl (fun r i => Binary.mul w r (.ofInt i)) (.ofInt r) =
      .ofInt (r * n.descFactorial k : ℕ) := by
  induction k generalizing r with
  | zero =>
    rw [Binary.range_eq_nil (by omega), Nat.descFactorial_zero, mul_one]
    rfl
  | succ k ih =>
    have hpos : 0 < n.descFactorial k := Nat.descFactorial_pos.2 (by omega)
    have hfirst : (n : ℤ) - (k + 1 : ℕ) + 1 = (n - k : ℕ) := by omega
    have hnext : ((n - k : ℕ) : ℤ) + 1 = n - k + 1 := by omega
    rw [Nat.descFactorial_succ, ← mul_assoc] at h ⊢
    have hproduct : ((r : ℤ) * (n - k : ℕ)).natAbs ≤ 2 ^ w := by
      rw [Int.natAbs_mul, Int.natAbs_natCast, Int.natAbs_natCast]
      exact (Nat.le_mul_of_pos_right _ hpos).trans h
    rw [Binary.range_eq_cons (by omega), List.foldl_cons, hfirst, hnext,
      Binary.mul_ofInt hw hproduct, ← Nat.cast_mul]
    exact ih (by omega) _ h

theorem permValue_natCast (hw : 1 ≤ w) {n k : ℕ} (hn : n < 2 ^ w) (h : n.descFactorial k < 2 ^ w) :
    permValue w (.ofInt n) (.ofInt k) = .ok (.ofInt (n.descFactorial k)) := by
  by_cases hk : k ≤ n
  · have hfold := foldl_mul_ofInt hw hk 1 (by rw [one_mul]; exact h.le)
    rw [one_mul] at hfold
    rw [permValue_ofInt hw (by omega) (by omega) (by exact_mod_cast hn)]
    exact congrArg Except.ok hfold
  · rw [Nat.descFactorial_eq_zero_iff_lt.2 (by omega)]
    exact if_pos (Binary.ofInt_lt_ofInt.2 (by omega))

/-! ## Combinations -/

/-- The products on the way to a combination grow. -/
theorem mul_choose_mono (m : ℕ) {i j : ℕ} (h : i ≤ j) :
    i * (m + i).choose i ≤ j * (m + j).choose j := by
  refine Nat.mul_le_mul h ?_
  rw [← Nat.choose_symm_add, ← Nat.choose_symm_add]
  exact Nat.choose_le_choose m (by omega)

/-- One step gives the next number of ways to choose. -/
theorem chooseStep_ofInt (hw : 1 ≤ w) {m i : ℕ} (hsum : m + i + 1 ≤ 2 ^ w)
    (h : (i + 1) * (m + (i + 1)).choose (i + 1) ≤ 2 ^ w) :
    chooseStep w (.ofInt m) (.ofInt ((m + i).choose i : ℕ)) (.ofInt (i + 1 : ℕ)) =
      .ofInt ((m + (i + 1)).choose (i + 1) : ℕ) := by
  have hproduct : ((m + i).choose i : ℤ) * (m + (i + 1 : ℕ)) =
      ((m + (i + 1)).choose (i + 1) : ℕ) * (i + 1 : ℕ) := by
    have hidentity := Nat.add_one_mul_choose_eq (m + i) i
    rw [mul_comm] at hidentity
    exact_mod_cast hidentity
  have hbound : (((m + (i + 1)).choose (i + 1) : ℕ) * ((i + 1 : ℕ) : ℤ)).natAbs ≤ 2 ^ w := by
    rw [← Nat.cast_mul, Int.natAbs_natCast, mul_comm]
    exact h
  have hchoose : (m + (i + 1)).choose (i + 1) ≤ 2 ^ w :=
    (Nat.le_mul_of_pos_left _ (Nat.succ_pos i)).trans h
  unfold chooseStep
  rw [Binary.add_ofInt hw (by omega) (by omega) (by omega), Binary.mul_ofInt hw (by rwa [hproduct]),
    hproduct, Binary.div_ofInt_of_mul hw (by rwa [Int.natAbs_natCast]) (by omega)]

theorem range_eq_concat {i j : ℤ} (h : i ≤ j) : Int.range i (j + 1) = Int.range i j ++ [j] := by
  unfold Int.range
  rw [show (j + 1 - i).toNat = (j - i).toNat + 1 by omega, List.range_succ, List.map_append,
    List.map_singleton]
  congr 2
  show i + ((j - i).toNat : ℤ) = j
  omega

/-- After step `i` the value is the number of ways to choose `i`. -/
theorem foldl_chooseStep_ofInt (hw : 1 ≤ w) {m s : ℕ} (hsum : m + s < 2 ^ w)
    (h : s * (m + s).choose s < 2 ^ w) {i : ℕ} (hi : i ≤ s) :
    (Int.range 1 (i + 1)).foldl (fun r i => chooseStep w (.ofInt m) r (.ofInt i)) 1 =
      .ofInt ((m + i).choose i : ℕ) := by
  induction i with
  | zero =>
    rw [Binary.range_eq_nil (by omega), Nat.choose_zero_right]
    rfl
  | succ i ih =>
    rw [range_eq_concat (by omega), List.foldl_append]
    have hih := ih (by omega)
    push_cast at hih ⊢
    rw [hih]
    exact chooseStep_ofInt hw (by omega) ((mul_choose_mono m hi).trans h.le)

theorem chooseValue_natCast (hw : 1 ≤ w) {n k : ℕ} (hn : n < 2 ^ w)
    (h : min k (n - k) * n.choose (min k (n - k)) < 2 ^ w) :
    chooseValue w (.ofInt n) (.ofInt k) = .ok (.ofInt (n.choose k)) := by
  by_cases hk : k ≤ n
  · have hpow : (2 : ℤ) ^ w = (2 ^ w : ℕ) := by push_cast; rfl
    have hchoose : n.choose (min k (n - k)) = n.choose k := by
      rcases min_choice k (n - k) with hmin | hmin
      · rw [hmin]
      · rw [hmin, Nat.choose_symm hk]
    have hmin : min (k : ℤ) (n - k) = (min k (n - k) : ℕ) := by omega
    have hle : min k (n - k) ≤ n := by omega
    rw [chooseValue_ofInt hw (by omega) (by omega) (by omega), hmin, ← hchoose]
    generalize min k (n - k) = s at h hle ⊢
    -- the factors begin after the rest
    obtain ⟨m, rfl⟩ : ∃ m, n = m + s := ⟨n - s, by omega⟩
    have hbase : Binary.sub w (.ofInt (m + s : ℕ)) (.ofInt s) = .ofInt m := by
      rw [Binary.sub_ofInt hw (by omega) (by omega) (by omega)]
      congr 1
      omega
    rw [hbase, foldl_chooseStep_ofInt hw hn h le_rfl, Binary.round_natCast]
  · rw [Nat.choose_eq_zero_of_lt (by omega)]
    exact if_pos (Binary.ofInt_lt_ofInt.2 (by omega))

/-! ## Calls -/

theorem requireNatural_natCast (b : Builtin) (n : ℕ) :
    b.requireNatural (Number.ofInt n).re = .ok () :=
  if_neg fun h => absurd (Binary.ofInt_lt_ofInt.1 h) (not_lt.2 (Int.natCast_nonneg n))

/-- The checks of the arguments let natural numbers pass. -/
theorem run_callBuiltin_naturals {b : Builtin} {value : Dyadic → Dyadic → Builtin.Result Dyadic}
    {c : Context} {v : Dyadic} {n k : ℕ} (hrandom : b.isRandom = false) (harity : b.arity = 2)
    (hrestriction : b.restriction = .integer)
    (hdigits : b.ownDigits? [.ofInt n, .ofInt k] = .ok none)
    (hrun : ∀ x y, b.run c.numerics.library c.bits 0 x y = do
      b.requireNatural x.re
      b.requireNatural y.re
      (value x.re y.re).map .ofReal)
    (hvalue : value (.ofInt n) (.ofInt k) = .ok v) :
    (callBuiltin b [.ofInt n, .ofInt k]).run c = (.ok (.ofReal v), c) := by
  have hinteger : ∀ i : ℤ, (Number.ofInt i).isInteger = true := Binary.isInteger_ofInt
  have hcheck : b.check [.ofInt n, .ofInt k] = .ok () := by
    unfold Builtin.check
    rw [harity, if_neg (by simp)]
    simp only [Builtin.checkRestriction, hrestriction, hinteger, if_true]
    rfl
  have hre : value (Number.ofInt n).re (Number.ofInt k).re = .ok v := hvalue
  have hvalue : b.value c.numerics.library c.bits 0 [.ofInt n, .ofInt k] = .ok (.ofReal v) := by
    show guarded _ (b.run c.numerics.library c.bits 0 (.ofInt n) (.ofInt k)) = _
    rw [hrun, requireNatural_natCast, requireNatural_natCast, hre]
    rfl
  rw [run_callBuiltin hrandom, Builtin.call, hcheck, hdigits]
  exact congrArg (·, c) hvalue

/-- **Permutations and combinations of integers.** At every working width, for natural numbers `n`
of this width and `k`: the number of ways to choose `k` of `n` is exact if the product before the
last quotient has at most as many bits as the working width, and so is the product of the `k`
integers up to `n` if it has.  Both are zero if `k` is greater than `n`. -/
theorem choose_and_perm_are_exact (c : Context) (n k : ℕ) (hn : n < 2 ^ c.bits) :
    (min k (n - k) * n.choose (min k (n - k)) < 2 ^ c.bits →
      (callBuiltin .choose [.ofInt n, .ofInt k]).run c = (.ok (.ofInt (n.choose k)), c)) ∧
    (n.descFactorial k < 2 ^ c.bits →
      (callBuiltin .perm [.ofInt n, .ofInt k]).run c = (.ok (.ofInt (n.descFactorial k)), c)) := by
  have hw : 1 ≤ c.bits := c.numerics.bits_pos
  constructor
  · intro h
    exact run_callBuiltin_naturals rfl rfl rfl rfl (fun _ _ => rfl) (chooseValue_natCast hw hn h)
  · intro h
    exact run_callBuiltin_naturals rfl rfl rfl rfl (fun _ _ => rfl) (permValue_natCast hw hn h)

/-- At the narrowest width: the products just have few enough bits. -/
theorem choose_and_perm_are_exact_at_the_edge :
    let c := Context.fresh ⟨.plain, .digits 1 (by decide), 10, fun _ => 0⟩
    c.bits = 31 ∧
      (callBuiltin .choose [.ofInt 30, .ofInt 17]).run c = (.ok (.ofInt 119759850), c) ∧
      (callBuiltin .choose [.ofInt 30, .ofInt 31]).run c = (.ok (.ofInt 0), c) ∧
      (callBuiltin .perm [.ofInt 46341, .ofInt 2]).run c = (.ok (.ofInt 2147441940), c) := by
  intro c
  have hbits : c.bits = 31 := by decide
  have hexact := fun n k (hn : n < 2 ^ 31) => choose_and_perm_are_exact c n k (by rwa [hbits])
  rw [hbits] at hexact
  have hchoose := (hexact 30 17 (by decide)).1 (by decide +kernel)
  have hnone := (hexact 30 31 (by decide)).1 (by decide +kernel)
  have hperm := (hexact 46341 2 (by decide)).2 (by decide +kernel)
  exact ⟨hbits, hchoose, hnone, hperm⟩

end Reckoner.Evaluation
