import Reckoner.Text

/-!
# Fragments

A text is cut into fragments, each of one kind.  Calls are cut out first: a placeholder character
stands for each of them while the rest is scanned, so the placeholder cannot occur in a source.
-/

namespace Reckoner

/-- What a fragment of a text is. -/
inductive FragmentKind where
  | numeral
  | name
  | operator
  | grouper
  | call
  | invalid
deriving DecidableEq

/-- A piece of a text with its kind. -/
structure Fragment where
  kind : FragmentKind
  text : String
deriving DecidableEq

namespace Fragment

/-- The character that stands for a call. -/
def placeholder : Char := '\x1f'

/-- The binary operators. -/
def isOperator (c : Char) : Bool :=
  c == '+' || c == '-' || c == '*' || c == '/' || c == '%' || c == '^'

def isGrouper (c : Char) : Bool := c == '(' || c == ')'

/-- Characters at which a fragment other than an invalid one starts. -/
def isStart (c : Char) : Bool :=
  c == placeholder || c.isDigit || Text.isNameStart c || isOperator c || isGrouper c

end Fragment

end Reckoner
