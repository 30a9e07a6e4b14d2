import Reckoner.Number.Arithmetic

/-!
# Operators and grouping symbols

Operators and grouping symbols are known by their character.  Only some characters mean something;
the others are defects when they are applied or matched.
-/

namespace Reckoner

/-- A binary operator. -/
structure Operator where
  symbol : Char
deriving DecidableEq

namespace Operator

def isMultiplicative (op : Operator) : Bool :=
  op.symbol == '*' || op.symbol == '/' || op.symbol == '%'

/-- Whether `op` binds tighter than `other`: powers come first, then products. -/
def precedes (op other : Operator) : Bool :=
  if op.symbol == '^' || other.symbol == '^' then op.symbol == '^' && other.symbol != '^'
  else op.isMultiplicative && !other.isMultiplicative

/-- Carries an operator out at width `w`. -/
def apply (L : Library) (w : Nat) (op : Operator) (a b : Number) : Except Fault Number :=
  match op.symbol with
  | '+' => .ok (Number.add w a b)
  | '-' => .ok (Number.sub w a b)
  | '*' => .ok (Number.mul w a b)
  | '/' => Number.div w a b
  | '%' => Number.rem w a b
  | '^' =>
    guarded (fun text => .eval (.report (operatorLabel op.symbol) text)) (Number.power L w a b)
  | symbol => .error (.defect (.unknownOperator symbol))

end Operator

/-- A grouping symbol. -/
structure Grouper where
  symbol : Char
deriving DecidableEq

namespace Grouper

/-- Whether the symbol opens a group; every other one closes a group. -/
def isOpening (g : Grouper) : Bool := g.symbol == '('

/-- Whether two grouping symbols belong together. -/
def matchWith (g other : Grouper) : Except Fault Bool :=
  match g.symbol with
  | '(' => .ok (other.symbol == ')')
  | ')' => .ok (other.symbol == '(')
  | symbol => .error (.defect (.unknownGrouper symbol))

end Grouper

end Reckoner
