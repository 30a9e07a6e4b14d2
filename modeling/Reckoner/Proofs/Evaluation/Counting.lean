import Reckoner.Proofs.Memory.Meaning
import Reckoner.Proofs.Number.Integer
import Reckoner.Session.Basic

/-!
# Counting by unit steps comes to an end

Summation and product, permutations and combinations count by unit steps.

1. As long as the counter stays among the integers of the working width, a step adds exactly one,
   and the integers from the first to the last one are taken, each once
   (`Evaluation.unit_steps_reach_the_end`).
2. Beyond that a unit may be lost in the sum.  Then the counter stands still and counting never ends
   (`Evaluation.counter_stands_still`).
-/

namespace Reckoner.Evaluation

open Builtin (Result permValue chooseValue)

/-! ## Permutations and combinations -/

section Products

variable {w : Nat} {n k : Int}

theorem foldlM_ok {α β : Type} (f : β → α → β) (xs : List α) (b : β) :
    xs.foldlM (fun b a => (.ok (f b a) : Result β)) b = .ok (xs.foldl f b) :=
  List.foldlM_pure

theorem permValue_ofInt (hw : 1 ≤ w) (hk : 0 ≤ k) (hle : k ≤ n) (hn : n < 2 ^ w) :
    permValue w (.ofInt n) (.ofInt k) =
      .ok ((Int.range (n - k + 1) (n + 1)).foldl (fun r i => Binary.mul w r (.ofInt i)) 1) := by
  have hfirst : Binary.add w (Binary.sub w (.ofInt n) (.ofInt k)) 1 = .ofInt (n - k + 1) := by
    rw [Binary.sub_ofInt hw hk hle (by omega), Binary.add_ofInt_one hw (by omega) (by omega)]
  unfold permValue
  rw [if_neg (by rw [Binary.ofInt_lt_ofInt]; omega)]
  dsimp only
  rw [hfirst, Binary.countThrough_ofInt hw (by omega) hn, foldlM_ok]

/-- The smaller of `k` and `n - k` is found without loss if it has at most `w` bits. -/
theorem smaller_ofInt (hw : 1 ≤ w) (hk : 0 ≤ k) (hle : k ≤ n) (hmin : min k (n - k) < 2 ^ w) :
    (if Binary.sub w (.ofInt n) (.ofInt k) < Dyadic.ofInt k then Binary.sub w (.ofInt n) (.ofInt k)
      else .ofInt k) = .ofInt (min k (n - k)) := by
  by_cases hrest : n - k < 2 ^ w
  · rw [Binary.sub_ofInt hw hk hle hrest]
    by_cases hlt : n - k < k
    · rw [if_pos (Binary.ofInt_lt_ofInt.2 hlt), min_eq_right (by omega)]
    · rw [if_neg fun h => hlt (Binary.ofInt_lt_ofInt.1 h), min_eq_left (by omega)]
  · have hsub := Binary.two_pow_le_sub hw hk (not_lt.1 hrest)
    have hnot : ¬Binary.sub w (.ofInt n) (.ofInt k) < Dyadic.ofInt k := by
      intro hlt
      have := Binary.ofInt_lt_ofInt.1 (Std.lt_of_le_of_lt hsub hlt)
      omega
    rw [if_neg hnot, min_eq_left (by omega)]

/-- One product and one quotient on the way to the number of ways to choose. -/
def chooseStep (w : Nat) (base r i : Dyadic) : Dyadic :=
  Binary.div w (Binary.mul w r (Binary.add w base i)) i

theorem chooseValue_ofInt (hw : 1 ≤ w) (hk : 0 ≤ k) (hle : k ≤ n) (hmin : min k (n - k) < 2 ^ w) :
    chooseValue w (.ofInt n) (.ofInt k) =
      .ok (Binary.round ((Int.range 1 (min k (n - k) + 1)).foldl
        (fun r i => chooseStep w (Binary.sub w (.ofInt n) (.ofInt (min k (n - k)))) r (.ofInt i))
        1)) := by
  have hpow : (0 : Int) < 2 ^ w := by positivity
  unfold chooseValue
  rw [if_neg (by rw [Binary.ofInt_lt_ofInt]; omega)]
  dsimp only
  rw [smaller_ofInt hw hk hle hmin]
  generalize Binary.sub w (.ofInt n) (.ofInt (min k (n - k))) = base
  have hcount := @Binary.countThrough_ofInt Result _ Dyadic w Builtin.stuck
    (fun i r => .ok (chooseStep w base r i)) hw 1 _ (by omega) hmin 1
  rw [foldlM_ok] at hcount
  exact congrArg (Except.map Binary.round) hcount

end Products

/-! ## Summation and product -/

theorem run_countTerms_ofInt {c : Context} {first last : Int} (hfirst : -2 ^ c.bits ≤ first)
    (hlast : last < 2 ^ c.bits) (name counter : String) (term : Action Number) :
    (countTerms name counter (.ofInt first) (.ofInt last) term).run c =
      (Action.binding [(counter, .ofInt first)] ((Int.range first (last + 1)).foldlM
        (fun total k => termStep c.bits name counter term (.ofInt k) total)
        (reductionUnit name))).run c := by
  have hcount := @Binary.countThrough_ofInt Action _ Number c.bits (.fail .endless)
    (termStep c.bits name counter term) c.numerics.bits_pos first last hfirst hlast
    (reductionUnit name)
  rw [← hcount]
  rfl

/-! ## All counts -/

/-- **Unit steps reach the end.** At every precision the counter goes on by exactly one below the
power of two that follows the integers of the working width.  A summation or product whose bounds
are among these takes each integer between them once; a permutation of so large an `n` takes `k`
steps, and a combination the smaller of `k` and `n - k` steps if this number is so large. -/
theorem unit_steps_reach_the_end (p : Precision) :
    (∀ i : Int, -2 ^ p.bits ≤ i → i < 2 ^ p.bits →
      Binary.add p.bits (.ofInt i) 1 = .ofInt (i + 1)) ∧
    (∀ (c : Context) (name counter : String) (first last : Int) (term : Action Number),
      c.bits = p.bits → -2 ^ p.bits ≤ first → first ≤ last → last < 2 ^ p.bits →
      ((Int.range first (last + 1)).length : Int) = last - first + 1 ∧
      (countTerms name counter (.ofInt first) (.ofInt last) term).run c =
        (Action.binding [(counter, .ofInt first)] ((Int.range first (last + 1)).foldlM
          (fun total k => termStep p.bits name counter term (.ofInt k) total)
          (reductionUnit name))).run c) ∧
    (∀ n k : Int, 0 ≤ k → k ≤ n → n < 2 ^ p.bits →
      ((Int.range (n - k + 1) (n + 1)).length : Int) = k ∧
      permValue p.bits (.ofInt n) (.ofInt k) = .ok ((Int.range (n - k + 1) (n + 1)).foldl
        (fun r i => Binary.mul p.bits r (.ofInt i)) 1)) ∧
    (∀ n k : Int, 0 ≤ k → k ≤ n → min k (n - k) < 2 ^ p.bits →
      ((Int.range 1 (min k (n - k) + 1)).length : Int) = min k (n - k) ∧
      chooseValue p.bits (.ofInt n) (.ofInt k) =
        .ok (Binary.round ((Int.range 1 (min k (n - k) + 1)).foldl
          (fun r i => chooseStep p.bits (Binary.sub p.bits (.ofInt n) (.ofInt (min k (n - k)))) r
            (.ofInt i)) 1))) := by
  have hw : 1 ≤ p.bits := p.bits_pos
  refine ⟨fun i hlow hhigh => Binary.add_ofInt_one hw hlow hhigh,
    fun c name counter first last term hp hfirst hle hlast => ?_, fun n k hk hle hn => ?_,
    fun n k hk hle hmin => ?_⟩
  · rw [← hp] at hfirst hlast ⊢
    refine ⟨?_, run_countTerms_ofInt hfirst hlast name counter term⟩
    rw [Binary.length_range (by omega)]
    omega
  · refine ⟨?_, permValue_ofInt hw hk hle hn⟩
    rw [Binary.length_range (by omega)]
    omega
  · refine ⟨?_, chooseValue_ofInt hw hk hle hmin⟩
    rw [Binary.length_range (by omega)]
    omega

/-- The same at the edge of the narrowest width: the last integers that are counted through, and a
combination of numbers that are far beyond. -/
theorem unit_steps_reach_the_end_at_the_edge :
    let p : Precision := .digits 1 (by decide)
    p.bits = 31 ∧
      Binary.add p.bits (.ofInt (2 ^ 31 - 1)) 1 = .ofInt (2 ^ 31) ∧
      ((countTerms "sum" "k" (.ofInt (2 ^ 31 - 3)) (.ofInt (2 ^ 31 - 1)) (evalVariable "k")).run
        (.fresh ⟨.plain, p, 10, fun _ => 0⟩)).1 = .ok (.ofInt (3 * 2 ^ 31 - 8)) ∧
      permValue p.bits (.ofInt (2 ^ 31 - 1)) (.ofInt 1) = .ok (.ofInt (2 ^ 31 - 1)) ∧
      chooseValue p.bits (.ofInt (2 ^ 200)) (.ofInt (2 ^ 200 - 1)) = .ok (.ofInt (2 ^ 200)) := by
  intro p
  obtain ⟨hstep, hsum, hperm, hchoose⟩ := unit_steps_reach_the_end p
  have hbits : p.bits = 31 := by decide
  refine ⟨hbits, hstep _ (by decide) (by decide), ?_, ?_, ?_⟩
  · rw [(hsum (.fresh ⟨.plain, p, 10, fun _ => 0⟩) "sum" "k" (2 ^ 31 - 3) (2 ^ 31 - 1)
      (evalVariable "k") rfl (by decide) (by decide) (by decide)).2]
    decide +kernel
  · rw [(hperm (2 ^ 31 - 1) 1 (by decide) (by decide) (by decide)).2]
    decide +kernel
  · rw [(hchoose (2 ^ 200) (2 ^ 200 - 1) (by decide) (by decide) (by decide)).2]
    decide +kernel

/-! ## Counters that stand still -/

/-- A counter that stands still is never through. -/
theorem countUp_of_standing {w : Nat} {k last : Dyadic} (hstands : Binary.add w k 1 = k)
    (hle : k ≤ last) {step : Dyadic → Dyadic → Dyadic} (fuel : Nat) (r : Dyadic) :
    Binary.countUp w last Builtin.stuck (fun i r => (.ok (step i r) : Result Dyadic)) fuel k r =
      Builtin.stuck := by
  induction fuel generalizing r with
  | zero => rfl
  | succ fuel ih =>
    rw [Binary.countUp, if_pos hle, hstands]
    exact ih (step k r)

/-- **A counter that stands still.** At the standard precision `10 ^ 300` is followed by itself.
The permutation of no members of it should take no step at all, but however many steps are taken it
is not at the end.  A line that asks for it, or for a sum from `10 ^ 300` through `10 ^ 300`, gets
no reply. -/
theorem counter_stands_still :
    let w := Precision.standard.bits
    let n := Binary.cut w (.ofInt (10 ^ 300))
    Binary.isInteger n = true ∧ 0 ≤ n ∧ Binary.add w n 1 = n ∧
      (∀ fuel, Binary.countUp w n Builtin.stuck
        (fun i r => (.ok (Binary.mul w r i) : Result Dyadic)) fuel
        (Binary.add w (Binary.sub w n 0) 1) 1 = Builtin.stuck) ∧
      ((Session.execute "perm[1e300,0]").run (.fresh .standard)).1 = .error .endless ∧
      ((Session.execute "sum[k,1e300,1e300,1]").run (.fresh .standard)).1 = .error .endless := by
  intro w n
  have hstands : Binary.add w n 1 = n := by decide +kernel
  have hfirst : Binary.add w (Binary.sub w n 0) 1 = n := by decide +kernel
  refine ⟨by decide +kernel, by decide +kernel, hstands, fun fuel => ?_, by decide +kernel,
    by decide +kernel⟩
  rw [hfirst]
  exact countUp_of_standing hstands (Dyadic.le_refl n) fuel 1

end Reckoner.Evaluation
