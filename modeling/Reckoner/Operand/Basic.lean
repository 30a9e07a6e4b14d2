import Reckoner.Symbol
import Std.Data.ExtTreeSet

/-!
# Operands

An operand is a numeral, a variable, a sequence of tokens or a call.  The tokens of an expression
stay a sequence: how they group is decided when the expression is evaluated.  `Operand.text` writes
an operand and `Operand.references` collects the names that it uses.
-/

namespace Reckoner

/-- A member of a token sequence over operands of some type. -/
inductive Token (α : Type) where
  | operand (operand : α)
  | operator (operator : Operator)
  | grouper (grouper : Grouper)
deriving DecidableEq

/-- Something that has a value. -/
inductive Operand where
  | numeral (value : Number) (text : String)
  | var (name : String)
  | expression (tokens : List (Token Operand))
  | call (name : String) (args : List Operand)

instance Operand.instInhabited : Inhabited Operand := ⟨.expression []⟩

/-! ## Text -/

mutual

/-- An operand as text; the arguments of a call are separated by a comma and a space. -/
def Operand.chars : Operand → List Char
  | .numeral _ text => text.toList
  | .var name => name.toList
  | .expression tokens => tokensChars tokens
  | .call name args => name.toList ++ '[' :: argumentsChars args ++ [']']

def tokensChars : List (Token Operand) → List Char
  | [] => []
  | .operand o :: rest => o.chars ++ tokensChars rest
  | .operator op :: rest => op.symbol :: tokensChars rest
  | .grouper g :: rest => g.symbol :: tokensChars rest

def argumentsChars : List Operand → List Char
  | [] => []
  | [arg] => arg.chars
  | arg :: next :: rest => arg.chars ++ ',' :: ' ' :: argumentsChars (next :: rest)

end

def Operand.text (o : Operand) : String := String.ofList o.chars

/-! ## References -/

/-- A finite set of names, in ascending order. -/
abbrev Names := Std.ExtTreeSet String

mutual

/-- The names of the variables and functions that an operand uses. -/
def Operand.references : Operand → Names
  | .numeral _ _ => ∅
  | .var name => {name}
  | .expression tokens => tokensReferences tokens
  | .call name args => (argumentsReferences args).insert name

def tokensReferences : List (Token Operand) → Names
  | [] => ∅
  | .operand o :: rest => o.references ∪ tokensReferences rest
  | .operator _ :: rest => tokensReferences rest
  | .grouper _ :: rest => tokensReferences rest

def argumentsReferences : List Operand → Names
  | [] => ∅
  | arg :: rest => arg.references ∪ argumentsReferences rest

end

end Reckoner
