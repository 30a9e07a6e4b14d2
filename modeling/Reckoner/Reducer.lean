import Reckoner.Operand.Basic

/-!
# Reduction with two stacks

A token sequence is reduced from the left with a stack of values and a stack of operators and open
groups.  An operator waits until one that does not bind tighter arrives.  A minus where an operand
is due counts as zero minus what follows, and a plus there does not count.

The reduction does not care what values are: it takes zero and a way to apply operators.
-/

namespace Reckoner

/-- A symbol that waits: an operator or an open group. -/
inductive Pending where
  | operator (operator : Operator)
  | grouper (grouper : Grouper)
deriving DecidableEq

/-- The state of a reduction. -/
structure Reducer (α : Type) where
  values : List α
  pending : List Pending
  expecting : Bool
deriving DecidableEq

/-- What a reduction needs to know about values. -/
structure Algebra (α : Type) where
  zero : α
  apply : Operator → α → α → Except Fault α

namespace Reducer

variable {α : Type}

/-- The state before the first token. -/
def start : Reducer α := ⟨[], [], true⟩

/-- Applies an operator to the two topmost values. -/
def reduce (A : Algebra α) (op : Operator) : List α → Except Fault (List α)
  | right :: left :: rest => (A.apply op left right).map (· :: rest)
  | _ => .error (.eval (.missingOperand op.symbol))

/-- Puts a value where an operand is due. -/
def pushValue (r : Reducer α) (value : α) : Reducer α :=
  { r with values := value :: r.values, expecting := false }

/-- Reduces to the innermost open group, which has to match the closing symbol. -/
def closeGroup (A : Algebra α) (g : Grouper) :
    List Pending → List α → Except Fault (List Pending × List α)
  | [], _ => .error (.eval (.order (.unmatchedClosing g.symbol)))
  | .grouper opening :: rest, values => do
    if ← opening.matchWith g then .ok (rest, values)
    else .error (.eval (.mismatchedGrouping opening.symbol g.symbol))
  | .operator op :: rest, values => do closeGroup A g rest (← reduce A op values)

def pushGrouper (A : Algebra α) (r : Reducer α) (g : Grouper) : Except Fault (Reducer α) :=
  if g.isOpening then
    if r.expecting then .ok { r with pending := .grouper g :: r.pending }
    else .error (.eval (.order (.unexpectedOpening g.symbol)))
  else if r.expecting then .error (.eval (.order (.unexpectedClosing g.symbol)))
  else do
    let (pending, values) ← closeGroup A g r.pending r.values
    return ⟨values, pending, r.expecting⟩

/-- Applies the waiting operators that an operator does not bind tighter than. -/
def unwind (A : Algebra α) (op : Operator) :
    List Pending → List α → Except Fault (List Pending × List α)
  | .operator top :: rest, values =>
    if op.precedes top then .ok (.operator top :: rest, values)
    else do unwind A op rest (← reduce A top values)
  | pending, values => .ok (pending, values)

def pushOperator (A : Algebra α) (r : Reducer α) (op : Operator) : Except Fault (Reducer α) :=
  if r.expecting then
    if op.symbol == '-' then
      .ok { r with values := A.zero :: r.values, pending := .operator op :: r.pending }
    else if op.symbol == '+' then .ok r
    else .error (.eval (.order (.unexpectedOperator op.symbol)))
  else do
    let (pending, values) ← unwind A op r.pending r.values
    return ⟨values, .operator op :: pending, true⟩

/-- Applies all waiting operators. -/
def drain (A : Algebra α) : List Pending → List α → Except Fault (List α)
  | [], values => .ok values
  | .grouper g :: _, _ => .error (.eval (.order (.unmatchedGrouping g.symbol)))
  | .operator op :: rest, values => do drain A rest (← reduce A op values)

/-- The value of a reduction that has taken all tokens. -/
def finish (A : Algebra α) (r : Reducer α) : Except Fault α := do
  match ← drain A r.pending r.values with
  | [value] => .ok value
  | _ => .error (.eval .notSingleValue)

end Reducer

end Reckoner
