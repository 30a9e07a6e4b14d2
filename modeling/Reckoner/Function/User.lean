import Reckoner.Number.Text
import Reckoner.Operand.Basic
import Reckoner.Table

/-!
# Functions defined by the user

A function has parameters, base cases and possibly a body; it remembers the values that its body
gave in `memo`.  What it refers to is what its body uses apart from the parameters.
-/

namespace Reckoner

/-- A function defined by the user. -/
structure UserFunction where
  params : List String
  body : Option Operand
  baseCases : Table
  memo : Table

namespace UserFunction

/-- A function that has neither base cases nor remembered values. -/
def define (params : List String) (body : Option Operand) : UserFunction :=
  ⟨params, body, .empty, .empty⟩

def arity (f : UserFunction) : Nat := f.params.length

/-- The names that the body uses, without the parameters. -/
def references (f : UserFunction) : Names :=
  match f.body with
  | none => ∅
  | some body => f.params.foldl (fun names param => names.erase param) body.references

/-- The function with one more base case. -/
def putBaseCase (f : UserFunction) (args : List Number) (value : Number) : UserFunction :=
  { f with baseCases := f.baseCases.put args value }

/-- The function with the base cases of another one put over its own. -/
def adoptBaseCases (f other : UserFunction) : UserFunction :=
  { f with baseCases := f.baseCases.adopt other.baseCases }

/-- The function with a remembered value. -/
def remember (f : UserFunction) (args : List Number) (value : Number) : UserFunction :=
  { f with memo := f.memo.put args value }

def forget (f : UserFunction) : UserFunction := { f with memo := .empty }

/-! ## Text -/

def commaSeparated (texts : List String) : String := String.intercalate ", " texts

def argumentsText (p : Precision) (args : List Number) : String :=
  commaSeparated (args.map (Number.text p))

/-- The definition of a function, as the lines of a text: the body and then the base cases. -/
def descriptionLines (p : Precision) (name : String) (f : UserFunction) : List String :=
  let head := name ++ "[" ++ commaSeparated f.params ++ "]"
  let definition := match f.body with
    | some body => head ++ " := " ++ body.text
    | none => head ++ " (base cases only)"
  definition :: f.baseCases.entries.map (fun (args, value) =>
    "    " ++ name ++ "[" ++ argumentsText p args ++ "] = " ++ value.text p)

def description (p : Precision) (name : String) (f : UserFunction) : String :=
  String.intercalate "\n" (f.descriptionLines p name)

end UserFunction

end Reckoner
