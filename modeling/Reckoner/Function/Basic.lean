import Reckoner.Function.Builtin
import Reckoner.Function.User

/-!
# Functions

A name stands for a function that is built in or for one that the user defined.
-/

namespace Reckoner

/-- A function. -/
inductive Function where
  | builtin (builtin : Builtin)
  | user (user : UserFunction)

namespace Function

def arity : Function → Nat
  | .builtin b => b.arity
  | .user f => f.arity

/-- The names that the value of the function hangs on. -/
def references : Function → Names
  | .builtin _ => ∅
  | .user f => f.references

def forget : Function → Function
  | .builtin b => .builtin b
  | .user f => .user f.forget

/-- The function as text, line by line. -/
def descriptionLines (p : Precision) (name : String) : Function → List String
  | .builtin b => [b.description]
  | .user f => f.descriptionLines p name

def description (p : Precision) (name : String) : Function → String
  | .builtin b => b.description
  | .user f => f.description p name

/-- The function defined by the user, if it is one. -/
def user? : Function → Option UserFunction
  | .builtin _ => none
  | .user f => some f

end Function

end Reckoner
