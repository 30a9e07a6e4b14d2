import Reckoner.Proofs.Reduction.Run
import Mathlib.Tactic.Common

/-!
# Settling

Taking an operator, closing a group and finishing all begin with the same thing: the waiting
operators of the innermost group are applied as long as they bind tight enough (`settle`).
-/

namespace Reckoner

variable {α β : Type}

def Operator.tightness (op : Operator) : Nat :=
  if op.symbol == '^' then 2 else if op.isMultiplicative then 1 else 0

theorem Operator.precedes_iff (op other : Operator) :
    op.precedes other = true ↔ other.tightness < op.tightness := by
  unfold precedes tightness
  by_cases h : op.symbol = '^' <;> by_cases h' : other.symbol = '^' <;>
    cases hm : op.isMultiplicative <;> cases hm' : other.isMultiplicative <;> simp_all

theorem Operator.tightness_le_two (op : Operator) : op.tightness ≤ 2 := by
  unfold tightness
  split_ifs <;> omega

namespace Reducer

variable {A : Algebra β} {leaf : α → β} {text : α → String}

/-! ## Settling -/

/-- Applies the waiting operators of the innermost group that bind at least as tight as `k`. -/
def settle (A : Algebra β) (k : Nat) :
    List Pending → List β → Except Fault (List Pending × List β)
  | .operator op :: rest, values =>
    if k ≤ op.tightness then reduce A op values >>= settle A k rest
    else .ok (.operator op :: rest, values)
  | pending, values => .ok (pending, values)

/-- Whether no operator on top of the pending ones binds at least as tight as `k`. -/
def Stops (k : Nat) (pending : List Pending) : Prop :=
  ∀ op rest, pending = .operator op :: rest → op.tightness < k

theorem stops_nil (k : Nat) : Stops k [] := by
  intro op rest h
  cases h

theorem stops_grouper (k : Nat) (g : Grouper) (pending : List Pending) :
    Stops k (.grouper g :: pending) := by
  intro op rest h
  cases h

theorem stops_operator {k : Nat} {op : Operator} (h : op.tightness < k) (pending : List Pending) :
    Stops k (.operator op :: pending) := by
  intro op' rest h'
  cases h'
  exact h

theorem Stops.succ {k : Nat} {pending : List Pending} (h : Stops k pending) :
    Stops (k + 1) pending :=
  fun op rest hp => Nat.lt_succ_of_lt (h op rest hp)

theorem settle_of_stops {k : Nat} {pending : List Pending} (h : Stops k pending)
    (values : List β) : settle A k pending values = .ok (pending, values) := by
  match pending, h with
  | [], _ => rfl
  | .grouper g :: rest, _ => rfl
  | .operator op :: rest, h =>
    have hop := h op rest rfl
    rw [settle, if_neg (by omega)]

theorem settle_operator {k : Nat} {op : Operator} (h : k ≤ op.tightness) (pending : List Pending)
    (x y : β) (values : List β) :
    settle A k (.operator op :: pending) (y :: x :: values) =
      A.apply op x y >>= fun z => settle A k pending (z :: values) := by
  rw [settle, if_pos h, reduce, map_bind]

theorem unwind_eq_settle (op : Operator) (pending : List Pending) (values : List β) :
    unwind A op pending values = settle A op.tightness pending values := by
  induction pending generalizing values with
  | nil => rfl
  | cons top rest ih =>
    cases top with
    | grouper g => rfl
    | operator top =>
      have hp := op.precedes_iff top
      rw [unwind, settle]
      by_cases h : top.tightness < op.tightness
      · rw [if_pos (hp.2 h), if_neg (by omega)]
      · rw [if_neg (fun hc => h (hp.1 hc)), if_pos (by omega)]
        exact bind_congr fun values' => ih values'

/-- Ends a group whose operators are applied. -/
def closeTop (g : Grouper) : List Pending × List β → Except Fault (List Pending × List β)
  | (.grouper opening :: rest, values) => do
    if ← opening.matchWith g then .ok (rest, values)
    else .error (.eval (.mismatchedGrouping opening.symbol g.symbol))
  | _ => .error (.eval (.order (.unmatchedClosing g.symbol)))

theorem closeGroup_eq_settle (g : Grouper) (pending : List Pending) (values : List β) :
    closeGroup A g pending values = settle A 0 pending values >>= closeTop g := by
  induction pending generalizing values with
  | nil => rfl
  | cons top rest ih =>
    cases top with
    | grouper opening => rfl
    | operator op =>
      rw [closeGroup, settle, if_pos (Nat.zero_le _), bind_assoc]
      exact bind_congr fun values' => ih values'

/-- The values that are left when all operators are applied. -/
def drainTop : List Pending × List β → Except Fault (List β)
  | (.grouper g :: _, _) => .error (.eval (.order (.unmatchedGrouping g.symbol)))
  | (_, values) => .ok values

theorem drain_eq_settle (pending : List Pending) (values : List β) :
    drain A pending values = settle A 0 pending values >>= drainTop := by
  induction pending generalizing values with
  | nil => rfl
  | cons top rest ih =>
    cases top with
    | grouper g => rfl
    | operator op =>
      rw [drain, settle, if_pos (Nat.zero_le _), bind_assoc]
      exact bind_congr fun values' => ih values'

/-- The value of a reduction that is left with one. -/
def onlyValue : List β → Except Fault β
  | [value] => .ok value
  | _ => .error (.eval .notSingleValue)

theorem finish_eq_settle (r : Reducer β) :
    r.finish A = settle A 0 r.pending r.values >>= fun s => drainTop s >>= onlyValue := by
  rw [finish, drain_eq_settle, bind_assoc]
  refine bind_congr fun s => bind_congr fun values => ?_
  unfold onlyValue
  rfl

/-! ## Tokens where no operand is due -/

theorem push_operator_of_not_expecting {r : Reducer β} (h : r.expecting = false)
    (op : Operator) :
    r.push A leaf text (.operator op) = settle A op.tightness r.pending r.values >>= fun s =>
      .ok ⟨s.2, .operator op :: s.1, true⟩ := by
  rw [push, pushOperator, if_neg (by rw [h]; exact Bool.false_ne_true), unwind_eq_settle]
  rfl

theorem push_closing_of_not_expecting {r : Reducer β} (h : r.expecting = false) :
    r.push A leaf text (.grouper ⟨')'⟩) = settle A 0 r.pending r.values >>= fun s =>
      closeTop ⟨')'⟩ s >>= fun s => .ok ⟨s.2, s.1, false⟩ := by
  rw [push, pushGrouper, if_neg (by decide), if_neg (by rw [h]; exact Bool.false_ne_true),
    closeGroup_eq_settle, h, bind_assoc]
  rfl

end Reducer

end Reckoner
