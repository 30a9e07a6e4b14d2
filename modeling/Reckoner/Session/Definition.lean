import Reckoner.Fragment.Calls
import Reckoner.Numeral
import Reckoner.Text

/-!
# Definitions

A text without blanks can define a function, a base case or a variable:

1. `name[names]=text` gives a function parameters and a body;
2. `name[numerals]=numeral` gives a function a base case;
3. `name=text` gives a variable a value.
-/

namespace Reckoner

/-- What a text defines. -/
inductive Definition where
  | function (name : String) (params : List String) (body : String)
  | baseCase (name : String) (args : List String) (value : String)
  | var (name : String) (value : String)
deriving DecidableEq

namespace Definition

/-- The parts of a text `name[inner]=right` in which `inner` has no closing bracket. -/
def splitBracketed? (cs : List Char) : Option (List Char × List Char × List Char) :=
  let name := cs.takeWhile (fun c => c != '[')
  match cs.dropWhile (fun c => c != '[') with
  | _ :: tail =>
    match tail.dropWhile (fun c => c != ']') with
    | _ :: '=' :: right =>
      if Text.isName name && !right.isEmpty then
        some (name, tail.takeWhile (fun c => c != ']'), right)
      else none
    | _ => none
  | [] => none

/-- The parts of a text `name=right`. -/
def splitEquation? (cs : List Char) : Option (List Char × List Char) :=
  let name := cs.takeWhile (fun c => c != '=')
  match cs.dropWhile (fun c => c != '=') with
  | _ :: right => if Text.isName name && !right.isEmpty then some (name, right) else none
  | [] => none

/-- The name, the parameters and the body that a text gives a function. -/
def function? (cs : List Char) : Option Definition :=
  match splitBracketed? cs with
  | some (name, inner, right) =>
    let params := Fragment.splitArguments inner
    if params.all Text.isName then
      some (.function (String.ofList name) (params.map String.ofList) (String.ofList right))
    else none
  | none => none

/-- The name, the arguments and the value of a base case. -/
def baseCase? (cs : List Char) : Option Definition :=
  match splitBracketed? cs with
  | some (name, inner, right) =>
    let args := Fragment.splitArguments inner
    if !args.isEmpty && args.all Numeral.isNumeral && Numeral.isNumeral right then
      some (.baseCase (String.ofList name) (args.map String.ofList) (String.ofList right))
    else none
  | none => none

def var? (cs : List Char) : Option Definition :=
  (splitEquation? cs).map (fun (name, right) => .var (String.ofList name) (String.ofList right))

/-- What a text without blanks defines, if anything. -/
def ofChars? (cs : List Char) : Option Definition :=
  (function? cs).or ((baseCase? cs).or (var? cs))

end Definition

end Reckoner
