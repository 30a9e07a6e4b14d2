import Reckoner.Operand.Basic

/-!
# The order of tokens

A token sequence is well ordered if operands and operators alternate, apart from signs before an
operand, and groups are closed.  The check walks the sequence and keeps whether an operand is due
and how many groups are open.
-/

namespace Reckoner.Token

/-- Where a walk over a token sequence stands. -/
structure Place where
  expecting : Bool
  depth : Nat
deriving DecidableEq

def Place.start : Place := ⟨true, 0⟩

/-- The place after a token; `text` writes an operand that stands where none is due. -/
def Place.step {α : Type} (text : α → String) (p : Place) : Token α → Except OrderFault Place
  | .operand o =>
    if p.expecting then .ok ⟨false, p.depth⟩ else .error (.unexpectedOperand (text o))
  | .grouper g =>
    if g.isOpening then
      if p.expecting then .ok ⟨true, p.depth + 1⟩ else .error (.unexpectedOpening g.symbol)
    else if p.depth = 0 then .error (.unmatchedClosing g.symbol)
    else if p.expecting then .error (.unexpectedClosing g.symbol)
    else .ok ⟨false, p.depth - 1⟩
  | .operator op =>
    if p.expecting then
      if op.symbol == '-' || op.symbol == '+' then .ok p
      else .error (.unexpectedOperator op.symbol)
    else .ok ⟨true, p.depth⟩

/-- The place after a token sequence. -/
def Place.walk {α : Type} (text : α → String) : Place → List (Token α) → Except OrderFault Place
  | p, [] => .ok p
  | p, token :: rest =>
    match p.step text token with
    | .error fault => .error fault
    | .ok p => p.walk text rest

/-- Whether a walk may end at a place. -/
def Place.finish (p : Place) : Except CompileFault Unit :=
  if 0 < p.depth then .error (.order (.unmatchedGrouping '('))
  else if p.expecting then .error .missingOperand
  else .ok ()

/-- Checks that a token sequence is well ordered. -/
def checkOrder {α : Type} (text : α → String) (tokens : List (Token α)) :
    Except CompileFault Unit :=
  match Place.start.walk text tokens with
  | .error fault => .error (.order fault)
  | .ok p => p.finish

end Reckoner.Token
