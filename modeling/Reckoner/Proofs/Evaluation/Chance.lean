import Reckoner.Evaluation
import Reckoner.Proofs.Memory.Growth

/-!
# Where chance comes in

Only two built-in functions draw random digits.  In a context whose built-in functions stand under
their own names (`Context.Named`) they are called by these names only, and a call of any other
built-in function reads nothing but how numbers are computed (`run_callBuiltin`).
-/

namespace Reckoner

/-- Functions that are built in stand under their own names, as in every context of a session. -/
def Context.Named (c : Context) : Prop := ∀ n b, c.function? n = some (.builtin b) → b.name = n

namespace Context.Named

variable {c d : Context}

theorem of_functions_eq (h : c.Named) (heq : d.functions = c.functions) : d.Named := by
  intro n b hb
  rw [function?, heq] at hb
  exact h n b hb

theorem grows (h : c.Named) (hgrows : c.Grows d) : d.Named := by
  intro n b hb
  have hforget := hgrows.map_forget_eq n
  rw [hb, Option.map_some, eq_comm, Option.map_eq_some_iff] at hforget
  obtain ⟨f, hf, hfb⟩ := hforget
  cases f with
  | builtin b' =>
    cases hfb
    exact h n b hf
  | user f => cases hfb

/-- A function that is built in is random only under one of the two names. -/
theorem isRandom_eq_false (h : c.Named) {n : String} {b : Builtin}
    (hb : c.function? n = some (.builtin b)) (hrand : n ≠ "rand") (hrandint : n ≠ "randint") :
    b.isRandom = false := by
  have hname := h n b hb
  cases b with
  | rand => exact absurd hname.symm hrand
  | randint => exact absurd hname.symm hrandint
  | _ => rfl

end Context.Named

/-! ## Calls without chance -/

/-- The result of a built-in function: its arguments are checked, and its value is computed with the
number of digits that it asks for. -/
def Builtin.call (m : Numerics) (fraction : Dyadic) (b : Builtin) (args : List Number) :
    Except Fault Number := do
  b.check args
  match ← b.ownDigits? args with
  | none => b.value m.library m.bits fraction args
  | some digits =>
    b.value m.library (Precision.bitsFor (digits + Precision.guardDigits)) fraction args

/-- Without chance, a built-in function depends on its arguments and the numerics only. -/
theorem Evaluation.run_callBuiltin {b : Builtin} (hb : b.isRandom = false) (args : List Number)
    (c : Context) : (callBuiltin b args).run c = (b.call c.numerics 0 args, c) := by
  have hcompute : ∀ d : Context, (computeBuiltin b args).run d =
      (b.value d.numerics.library d.bits 0 args, d) := by
    intro d
    unfold computeBuiltin fractionFor
    rw [hb]
    rfl
  unfold callBuiltin Builtin.call
  cases hcheck : b.check args with
  | error fault => rfl
  | ok u =>
    rw [Action.run_ofExcept_ok_bind]
    cases howndigits : b.ownDigits? args with
    | error fault => rfl
    | ok digits? =>
      rw [Action.run_ofExcept_ok_bind]
      cases digits? with
      | none => exact hcompute c
      | some digits =>
        rw [Action.run_withDigits, hcompute]
        rfl

end Reckoner
