import Reckoner.Evaluation
import Reckoner.Proofs.Outcome

/-!
# Reducing a whole token sequence

`Reducer.reduceAll` feeds a token sequence to a reduction whose operands have their values at hand.
Evaluating an expression over operands that have values is such a reduction
(`Evaluation.run_evalOperand_values`).
-/

namespace Reckoner

variable {α β : Type}

namespace Reducer

/-- Takes a token; `leaf` gives the value of an operand and `text` writes it. -/
def push (A : Algebra β) (leaf : α → β) (text : α → String) (r : Reducer β) :
    Token α → Except Fault (Reducer β)
  | .operand a =>
    if r.expecting then .ok (r.pushValue (leaf a))
    else .error (.eval (.order (.unexpectedOperand (text a))))
  | .operator op => r.pushOperator A op
  | .grouper g => r.pushGrouper A g

/-- Takes tokens one after the other. -/
def takeAll (A : Algebra β) (leaf : α → β) (text : α → String) :
    List (Token α) → Reducer β → Except Fault (Reducer β)
  | [], r => .ok r
  | t :: ts, r => r.push A leaf text t >>= takeAll A leaf text ts

/-- Reduces a token sequence to a value. -/
def reduceAll (A : Algebra β) (leaf : α → β) (text : α → String) (ts : List (Token α)) :
    Except Fault β := do
  let r ← takeAll A leaf text ts .start
  r.finish A

variable {A : Algebra β} {leaf : α → β} {text : α → String}

theorem takeAll_cons (t : Token α) (ts : List (Token α)) (r : Reducer β) :
    takeAll A leaf text (t :: ts) r = r.push A leaf text t >>= takeAll A leaf text ts := rfl

theorem takeAll_append (ts us : List (Token α)) (r : Reducer β) :
    takeAll A leaf text (ts ++ us) r = takeAll A leaf text ts r >>= takeAll A leaf text us := by
  induction ts generalizing r with
  | nil => rfl
  | cons t ts ih =>
    rw [List.cons_append, takeAll_cons, takeAll_cons, bind_assoc]
    exact bind_congr fun r' => ih r'

end Reducer

/-! ## Expressions over operands with values -/

def Operand.IsLiteral (o : Operand) : Prop := ∃ value text, o = .numeral value text

def Operand.literal : Operand → Number
  | .numeral value _ => value
  | _ => 0

namespace Evaluation

/-- The operands of some tokens have values in a context and leave it as it is. -/
def HaveValues (call : String → List Operand → Action Number) (c : Context)
    (leaf : Operand → Number) (ts : List (Token Operand)) : Prop :=
  ∀ o, .operand o ∈ ts → (evalOperand call o).run c = (.ok (leaf o), c)

section

variable {call : String → List Operand → Action Number} {c : Context} {leaf : Operand → Number}
  {ts : List (Token Operand)}

theorem run_evalTokens_values (h : HaveValues call c leaf ts) (r : Reducer Number) :
    (evalTokens call ts r).run c = (r.takeAll (algebra c.numerics) leaf Operand.text ts, c) := by
  induction ts generalizing r with
  | nil => rw [evalTokens]; rfl
  | cons t ts ih =>
    have hts : HaveValues call c leaf ts := fun o ho => h o (List.mem_cons_of_mem _ ho)
    rw [Reducer.takeAll_cons]
    cases t with
    | operand o =>
      rw [evalTokens, Reducer.push]
      by_cases hr : r.expecting = true
      · simp only [hr, if_true, ok_bind]
        rw [Action.run_bind, h o (by simp)]
        exact ih hts _
      · simp only [hr]
        rfl
    | operator op =>
      rw [evalTokens, Reducer.push, Action.run_context_bind]
      cases r.pushOperator (algebra c.numerics) op with
      | error fault => rfl
      | ok r' => exact ih hts r'
    | grouper g =>
      rw [evalTokens, Reducer.push, Action.run_context_bind]
      cases r.pushGrouper (algebra c.numerics) g with
      | error fault => rfl
      | ok r' => exact ih hts r'

theorem run_evalOperand_values (h : HaveValues call c leaf ts) :
    (evalOperand call (.expression ts)).run c =
      (Reducer.reduceAll (algebra c.numerics) leaf Operand.text ts, c) := by
  rw [evalOperand, Action.run_bind, run_evalTokens_values h]
  unfold Reducer.reduceAll
  cases Reducer.takeAll (algebra c.numerics) leaf Operand.text ts .start with
  | error fault => rfl
  | ok r => rfl

end

theorem run_evaluate_values {c : Context} {leaf : Operand → Number} {ts : List (Token Operand)}
    (h : ∀ call, HaveValues call c leaf ts) :
    (Operand.expression ts).evaluate.run c =
      (Reducer.reduceAll (algebra c.numerics) leaf Operand.text ts, c) := by
  unfold Operand.evaluate
  rw [Action.run_bind, Action.run_context]
  cases hl : c.levels with
  | zero => simp only [hl]; exact run_evalOperand_values (h _)
  | succ n => simp only [hl]; exact run_evalOperand_values (h _)

theorem run_evaluate_literals (c : Context) {ts : List (Token Operand)}
    (h : ∀ o, .operand o ∈ ts → o.IsLiteral) :
    (Operand.expression ts).evaluate.run c =
      (Reducer.reduceAll (algebra c.numerics) Operand.literal Operand.text ts, c) := by
  refine run_evaluate_values fun call o ho => ?_
  obtain ⟨value, text, rfl⟩ := h o ho
  rw [evalOperand]
  rfl

end Evaluation

end Reckoner
