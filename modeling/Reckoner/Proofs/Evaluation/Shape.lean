import Reckoner.Evaluation
import Reckoner.Proofs.Number.Power

/-!
# Faults of values and faults of shape

A shape fault says that tokens are out of order or that a summation has the wrong arguments.
Operators and built-in functions only fail because of the values, unless nothing is known about the
operator or the function has no direct implementation (`Operator.fault_of_apply`,
`Builtin.fault_of_value`).
-/

namespace Reckoner

/-- Whether a cause of evaluation is about the shape of an operand. -/
def EvalFault.isShape : EvalFault → Bool
  | .order _ | .mismatchedGrouping _ _ | .missingOperand _ | .notSingleValue | .reduction _ => true
  | _ => false

/-- Whether a fault of evaluation is about the shape of an operand: the order of its tokens or the
arguments of a summation or product. -/
def Fault.isShape : Fault → Bool
  | .eval cause => cause.isShape
  | _ => false

/-- Whether a fault is about values: a cause of evaluation that is not about shape, or a count that
never ends. -/
def Fault.isValue : Fault → Bool
  | .eval cause => !cause.isShape
  | .endless => true
  | _ => false

theorem Fault.not_isShape_of_isValue {fault : Fault} (h : fault.isValue = true) :
    fault.isShape = false := by
  cases fault with
  | eval cause => rwa [isValue, Bool.not_eq_true'] at h
  | _ => rfl

/-! ## Faults of values -/

/-- A numeric result whose fault, if it has one, is about values. -/
def Raised.OfValues {α : Type} (x : Except (Raised Fault) α) : Prop :=
  ∀ fault, x = .error (.fault fault) → fault.isValue = true

namespace Raised

variable {α β : Type}

theorem ofValues_ok (a : α) : OfValues (.ok a) := fun _ h => by cases h

theorem ofValues_report (text : String) : OfValues (.error (.report text) : Except _ α) :=
  fun _ h => by cases h

theorem ofValues_fault {fault : Fault} (h : fault.isValue = true) :
    OfValues (.error (.fault fault) : Except _ α) :=
  fun _ e => by cases e; exact h

theorem ofValues_ite {p : Prop} [Decidable p] {x y : Except (Raised Fault) α} (hx : OfValues x)
    (hy : OfValues y) : OfValues (if p then x else y) := by
  split
  · exact hx
  · exact hy

theorem OfValues.bind {x : Except (Raised Fault) α} {next : α → Except (Raised Fault) β}
    (hx : OfValues x) (hn : ∀ a, OfValues (next a)) : OfValues (x >>= next) := by
  intro fault h
  cases x with
  | error raised =>
    cases h
    exact hx fault rfl
  | ok a => exact hn a fault h

theorem OfValues.map {x : Except (Raised Fault) α} {f : α → β} (hx : OfValues x) :
    OfValues (x.map f) := by
  intro fault h
  cases x with
  | error raised =>
    cases h
    exact hx fault rfl
  | ok a => cases h

theorem OfValues.guarded {x : Except (Raised Fault) α} {wrap : String → Fault}
    (hx : OfValues x) (hw : ∀ text, (wrap text).isValue = true) {fault : Fault}
    (h : Reckoner.guarded wrap x = .error fault) : fault.isValue = true := by
  match x, h with
  | .error (.fault _), h =>
    cases h
    exact hx fault rfl
  | .error (.report text), h =>
    cases h
    exact hw _

theorem OfValues.countUp {w : Nat} {last : Dyadic} {stuck : Except (Raised Fault) α}
    {step : Dyadic → α → Except (Raised Fault) α} (hstuck : OfValues stuck)
    (hstep : ∀ k a, OfValues (step k a)) (fuel : Nat) (k : Dyadic) (a : α) :
    OfValues (Binary.countUp w last stuck step fuel k a) := by
  induction fuel generalizing k a with
  | zero => exact hstuck
  | succ fuel ih =>
    unfold Binary.countUp
    split
    · exact (hstep k a).bind fun b => ih _ b
    · exact ofValues_ok a

end Raised

open Raised

/-- What a library reports is no fault yet. -/
theorem Raised.ofValues_library {α : Type} (result : Except String α) :
    OfValues (result.mapError .report : Except (Raised Fault) α) := by
  cases result with
  | error text => exact ofValues_report text
  | ok a => exact ofValues_ok a

theorem Raised.ofValues_mapError {α : Type} {result : Except Fault α}
    (h : ∀ fault, result = .error fault → fault.isValue = true) :
    OfValues (result.mapError .fault : Except (Raised Fault) α) := by
  cases result with
  | error fault => exact ofValues_fault (h fault rfl)
  | ok a => exact ofValues_ok a

theorem Number.isValue_of_div {w : Nat} {a b : Number} {fault : Fault}
    (h : div w a b = .error fault) : fault.isValue = true := by
  rw [fault_of_div h]
  rfl

theorem Number.ofValues_power (L : Library) {w : Nat} (hw : 1 ≤ w) (a b : Number) :
    OfValues (power L w a b) := by
  unfold power
  split
  · next hinteger =>
    refine ofValues_mapError fun fault h => ?_
    rw [fault_of_powerInt hw ((Bool.and_eq_true_iff.1 hinteger).2) h]
    rfl
  · exact ofValues_ite (ofValues_ite (ofValues_ok _) (ofValues_fault rfl)) (ofValues_library _)

/-- An operator that is known fails only because of the values. -/
theorem Operator.fault_of_apply {L : Library} {w : Nat} (hw : 1 ≤ w) {op : Operator} {a b : Number}
    {fault : Fault} (h : op.apply L w a b = .error fault) :
    fault.isValue = true ∨
      Fragment.isOperator op.symbol = false ∧ fault = .defect (.unknownOperator op.symbol) := by
  unfold Operator.apply at h
  split at h
  · cases h
  · cases h
  · cases h
  · exact .inl (Number.isValue_of_div h)
  · unfold Number.rem at h
    split at h
    · cases h
      exact .inl rfl
    · split at h <;> cases h
      exact .inl rfl
  · exact .inl ((Number.ofValues_power L hw a b).guarded (fun _ => rfl) h)
  · next hplus hminus htimes hover hrem hpower =>
    cases h
    refine .inr ⟨?_, rfl⟩
    simp only [Fragment.isOperator, Bool.or_eq_false_iff, beq_eq_false_iff_ne]
    exact ⟨⟨⟨⟨⟨hplus, hminus⟩, htimes⟩, hover⟩, hrem⟩, hpower⟩

/-! ## Built-in functions -/

namespace Builtin

theorem isValue_of_checkRestriction {b : Builtin} {args : List Number} {cause : EvalFault}
    (h : b.checkRestriction args = .error cause) : (Fault.eval cause).isValue = true := by
  induction args with
  | nil => cases h
  | cons arg rest ih =>
    unfold checkRestriction at h
    split at h
    · split at h
      · exact ih h
      · cases h; rfl
    · split at h
      · exact ih h
      · cases h; rfl
    · cases h

theorem isValue_of_check {b : Builtin} {args : List Number} {fault : Fault}
    (h : b.check args = .error fault) : fault.isValue = true := by
  unfold check at h
  split at h
  · cases h
    rfl
  · cases hr : b.checkRestriction args with
    | error cause =>
      rw [hr] at h
      cases h
      exact isValue_of_checkRestriction hr
    | ok u =>
      rw [hr] at h
      cases h

theorem isValue_of_constantDigits {b : Builtin} {digits : Dyadic} {fault : Fault}
    (h : ((b.constantDigits digits).map some).mapError .eval = .error fault) :
    fault.isValue = true := by
  unfold constantDigits at h
  split at h
  · cases h
    rfl
  · split at h
    · cases h
      rfl
    · cases h

theorem isValue_of_ownDigits {b : Builtin} {args : List Number} {fault : Fault}
    (h : b.ownDigits? args = .error fault) : fault.isValue = true := by
  unfold ownDigits? at h
  split at h
  · exact isValue_of_constantDigits h
  · exact isValue_of_constantDigits h
  · cases h

theorem ofValues_requireNot (b : Builtin) (z point : Number) :
    OfValues (requireNot b z point) := ofValues_ite (ofValues_fault rfl) (ofValues_ok _)

theorem ofValues_requireNonzero (b : Builtin) (z : Number) :
    OfValues (requireNonzero b z) := ofValues_ite (ofValues_fault rfl) (ofValues_ok _)

theorem ofValues_requireNatural (b : Builtin) (x : Dyadic) :
    OfValues (requireNatural b x) := ofValues_ite (ofValues_fault rfl) (ofValues_ok _)

theorem ofValues_requireDefined (f : Elementary) (z : Number) :
    OfValues (requireDefined f z) := by
  unfold requireDefined
  split
  · exact (ofValues_requireNot _ _ _).bind fun _ => ofValues_requireNot _ _ _
  · exact (ofValues_requireNot _ _ _).bind fun _ => ofValues_requireNot _ _ _
  · exact ofValues_requireNonzero _ _
  · exact ofValues_requireNonzero _ _
  · exact ofValues_ok _

theorem ofValues_quotient (w : Nat) (a b : Number) : OfValues (quotient w a b) :=
  ofValues_mapError fun _ => Number.isValue_of_div

theorem ofValues_chooseValue (w : Nat) (n k : Dyadic) : OfValues (chooseValue w n k) :=
  ofValues_ite (ofValues_ok _)
    (OfValues.countUp (ofValues_fault rfl) (fun _ _ => ofValues_ok _) _ _ _).map

theorem ofValues_permValue (w : Nat) (n k : Dyadic) : OfValues (permValue w n k) :=
  ofValues_ite (ofValues_ok _)
    (OfValues.countUp (ofValues_fault rfl) (fun _ _ => ofValues_ok _) _ _ _)

/-- Whatever a library does, a function that has values fails only because of the arguments. -/
theorem ofValues_run (L : Library) (w : Nat) (fraction : Dyadic) {b : Builtin}
    (hb : Reserved.isReduction b.name = false) (x y : Number) :
    OfValues (b.run L w fraction x y) := by
  cases b with
  | elementary f =>
    exact (ofValues_requireDefined f x).bind fun _ => ofValues_library _
  | log =>
    exact (ofValues_requireNonzero _ _).bind fun _ => (ofValues_requireNonzero _ _).bind fun _ =>
      (ofValues_library _).bind fun _ => (ofValues_library _).bind fun _ => ofValues_quotient w _ _
  | sinc =>
    refine ofValues_ite (ofValues_ok _) ?_
    exact (ofValues_library _).bind fun _ => ofValues_quotient w _ _
  | gamma => exact ofValues_ite (ofValues_fault rfl) (ofValues_library _).map
  | choose =>
    exact (ofValues_requireNatural _ _).bind fun _ => (ofValues_requireNatural _ _).bind fun _ =>
      (ofValues_chooseValue w _ _).map
  | perm =>
    exact (ofValues_requireNatural _ _).bind fun _ => (ofValues_requireNatural _ _).bind fun _ =>
      (ofValues_permValue w _ _).map
  | sum => cases hb
  | prod => cases hb
  | _ => exact ofValues_ok _

/-- A built-in function fails only because of the values, unless it binds a counter. -/
theorem fault_of_value {L : Library} {w : Nat} {fraction : Dyadic} {b : Builtin}
    {args : List Number} {fault : Fault} (h : b.value L w fraction args = .error fault) :
    fault.isValue = true ∨
      Reserved.isReduction b.name = true ∧ fault = .defect (.noImplementation b.name) := by
  by_cases hb : Reserved.isReduction b.name = true
  · obtain rfl | rfl : b = .sum ∨ b = .prod := by
      revert hb
      cases b with
      | elementary f => cases f <;> decide
      | _ => decide
    · cases h
      exact .inr ⟨rfl, rfl⟩
    · cases h
      exact .inr ⟨rfl, rfl⟩
  · exact .inl ((ofValues_run L w fraction (Bool.eq_false_iff.2 hb) _ _).guarded (fun _ => rfl) h)

end Builtin

end Reckoner
