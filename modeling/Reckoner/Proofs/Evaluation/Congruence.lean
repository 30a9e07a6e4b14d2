import Reckoner.Evaluation
import Reckoner.Proofs.Operand.Occurs

/-!
# Relations that evaluation respects

A congruence is a relation between actions that relates what only reads how numbers are computed and
shown to itself and that sequences of actions keep.  What evaluation builds from the parts of an
operand is then related as soon as the parts are: the tokens of an expression, the arguments of a
call and the bounds of a summation.  An operand is evaluated alike if its variables and its calls
are (`Congruence.evalOperand`).
-/

namespace Reckoner.Evaluation

open Reckoner.Action

/-- A relation between actions that holds of what only reads how numbers are computed and shown, and
that sequences keep. -/
structure Congruence (Rel : (α : Type) → Action α → Action α → Prop) : Prop where
  reading : ∀ {α : Type} (f : Numerics → Except Fault α),
    Rel α (Action.context >>= fun c => .ofExcept (f c.numerics))
      (Action.context >>= fun c => .ofExcept (f c.numerics))
  bind : ∀ {α β : Type} {act act' : Action α} {next next' : α → Action β},
    Rel α act act' → (∀ a, Rel β (next a) (next' a)) → Rel β (act >>= next) (act' >>= next')

namespace Congruence

variable {Rel : (α : Type) → Action α → Action α → Prop} (h : Congruence Rel) {α β : Type}

include h

theorem pure (a : α) : Rel α (Pure.pure a) (Pure.pure a) := h.reading fun _ => .ok a

theorem fail (fault : Fault) : Rel α (.fail fault) (.fail fault) := h.reading fun _ => .error fault

theorem mapM {f f' : α → Action β} {xs : List α} (hf : ∀ x ∈ xs, Rel β (f x) (f' x)) :
    Rel (List β) (xs.mapM f) (xs.mapM f') := by
  induction xs with
  | nil =>
    simp only [List.mapM_nil]
    exact h.pure _
  | cons x xs ih =>
    simp only [List.mapM_cons]
    refine h.bind (hf x List.mem_cons_self) fun y => ?_
    refine h.bind (ih fun x hx => hf x (List.mem_cons_of_mem _ hx)) fun ys => ?_
    exact h.pure _

theorem countUp {w : Nat} {last : Dyadic} {step step' : Dyadic → α → Action α} (fault : Fault)
    (hstep : ∀ k a, Rel α (step k a) (step' k a)) (fuel : Nat) (k : Dyadic) (a : α) :
    Rel α (Binary.countUp w last (.fail fault) step fuel k a)
      (Binary.countUp w last (.fail fault) step' fuel k a) := by
  induction fuel generalizing k a with
  | zero => exact h.fail fault
  | succ fuel ih =>
    unfold Binary.countUp
    split
    · exact h.bind (hstep k a) fun a => ih _ a
    · exact h.pure a

/-! ## Operands -/

section Operands

variable {call call' : String → List Operand → Action Number}

theorem evalTokens {ts : List (Token Operand)}
    (hparts : ∀ o, .operand o ∈ ts →
      Rel Number (Evaluation.evalOperand call o) (Evaluation.evalOperand call' o))
    (r : Reducer Number) :
    Rel (Reducer Number) (Evaluation.evalTokens call ts r) (Evaluation.evalTokens call' ts r) := by
  induction ts generalizing r with
  | nil =>
    simp only [Evaluation.evalTokens]
    exact h.pure r
  | cons t ts ih =>
    have hts := fun o h => hparts o (List.mem_cons_of_mem _ h)
    cases t with
    | operand o =>
      simp only [Evaluation.evalTokens]
      split
      · exact h.bind (hparts o List.mem_cons_self) fun value => ih hts _
      · exact h.fail _
    | operator op =>
      simp only [Evaluation.evalTokens, ← bind_assoc]
      exact h.bind (h.reading fun m => r.pushOperator (algebra m) op) fun r => ih hts r
    | grouper g =>
      simp only [Evaluation.evalTokens, ← bind_assoc]
      exact h.bind (h.reading fun m => r.pushGrouper (algebra m) g) fun r => ih hts r

theorem evalOperand {o : Operand}
    (hvar : ∀ n, Operand.Occurs (.var n) o → Rel Number (evalVariable n) (evalVariable n))
    (hcall : ∀ name args, Operand.Occurs (.call name args) o →
      Rel Number (call name args) (call' name args)) :
    Rel Number (Evaluation.evalOperand call o) (Evaluation.evalOperand call' o) := by
  induction o using Operand.induction with
  | numeral value text =>
    simp only [Evaluation.evalOperand]
    exact h.pure value
  | var name =>
    simp only [Evaluation.evalOperand]
    exact hvar name .self
  | expression tokens ih =>
    simp only [Evaluation.evalOperand]
    refine h.bind (h.evalTokens (fun o ho => ?_) _) fun r => ?_
    · exact ih o ho (fun n hn => hvar n (.token ho hn))
        fun name args hargs => hcall name args (.token ho hargs)
    · exact h.reading fun m => r.finish (algebra m)
  | call name args _ =>
    simp only [Evaluation.evalOperand]
    exact hcall name args .self

end Operands

/-! ## Bounds -/

/-- A summation is evaluated alike if its bounds are and if it counts alike between any bounds. -/
theorem evalBounds {eval eval' : Operand → Action Number} (name counter : String)
    {first last term : Operand} (hfirst : Rel Number (eval first) (eval' first))
    (hlast : Rel Number (eval last) (eval' last))
    (hcount : ∀ a b, Rel Number (countTerms name counter a b (eval term))
      (countTerms name counter a b (eval' term))) :
    Rel Number (Evaluation.evalBounds eval name counter first last term)
      (Evaluation.evalBounds eval' name counter first last term) := by
  unfold Evaluation.evalBounds
  refine h.bind hfirst fun a => h.bind hlast fun b => ?_
  split
  · exact h.fail _
  · split
    · exact h.reading fun m => .error (.eval (.boundsReversed name
        (Number.realText m.precision a.re) (Number.realText m.precision b.re)))
    · exact hcount a.re b.re

end Congruence

end Reckoner.Evaluation
