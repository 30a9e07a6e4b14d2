import Reckoner.Fragment.Calls
import Reckoner.Lexed
import Reckoner.Number.Text
import Reckoner.Operand.Order
import Reckoner.Text

/-!
# Compiling a source into an operand

The fragments of a source become tokens, whose order is checked.  A source that is a single numeral,
name or call is that operand itself.  Calls are compiled from their text, with one level less left
for the calls in their arguments.  Numerals are read at the width `w`.
-/

namespace Reckoner.Operand

/-! ## Single tokens -/

def numeralValue (w : Nat) (text : String) : Except Fault Number :=
  if Numeral.isNumeral text.toList then Number.ofNumeral w text
  else .error (.compile (.notNumeral text))

def ofNumeral (w : Nat) (text : String) : Except Fault Operand :=
  (numeralValue w text).map (fun value => .numeral value text)

/-- Compiles the text of a variable. -/
def ofName (text : String) : Except Fault Operand :=
  if Text.isName text.toList then .ok (.var text) else .error (.compile (.notVariable text))

/-- Compiles the text of an operator. -/
def operatorOf (text : String) : Except Fault Operator :=
  match text.toList with
  | [c] => if Fragment.isOperator c then .ok ⟨c⟩ else .error (.compile (.notOperator text))
  | _ => .error (.compile (.notOperator text))

def grouperOf (text : String) : Except Fault Grouper :=
  match text.toList with
  | [c] => if Fragment.isGrouper c then .ok ⟨c⟩ else .error (.compile (.notGrouper text))
  | _ => .error (.compile (.notGrouper text))

/-! ## Calls -/

/-- The name and the text between the brackets of a call. -/
def splitCall? (cs : List Char) : Option (List Char × List Char) :=
  match cs.dropWhile (fun c => c != '[') with
  | _ :: tail =>
    let name := cs.takeWhile (fun c => c != '[')
    if tail.getLast? = some ']' && Text.isName name then some (name, tail.dropLast) else none
  | [] => none

/-- Checks the shape of a summation or product: four arguments, the first of them a variable. -/
def checkReduction (name : String) (args : List Operand) : Except ReductionFault Unit :=
  match args with
  | [.var _, _, _, _] => .ok ()
  | [_, _, _, _] => .error (.counterNotVariable name)
  | _ => .error (.argumentCount name)

/-- Compiles the text of a call, given how to compile an argument. -/
def ofCallWith (argument : String → Except Fault Operand) (text : String) :
    Except Fault Operand := do
  match splitCall? text.toList with
  | none => .error (.compile (.notCall text))
  | some (name, inner) =>
    let args ← (Fragment.splitArguments inner).mapM (fun part =>
      if part.isEmpty then .error (.compile (.notCall text)) else argument (String.ofList part))
    let name := String.ofList name
    if Reserved.isReduction name then
      match checkReduction name args with
      | .error fault => .error (.compile (.reduction fault))
      | .ok () => .ok (.call name args)
    else .ok (.call name args)

/-! ## Sources -/

/-- The token of a fragment that is not a call. -/
def plainToken (w : Nat) (f : Fragment) : Except Fault (Token Operand) :=
  match f.kind with
  | .numeral => (ofNumeral w f.text).map .operand
  | .name => (ofName f.text).map .operand
  | .operator => (operatorOf f.text).map .operator
  | .grouper => (grouperOf f.text).map .grouper
  | .call => .error (.defect .missingCallText)
  | .invalid => .error (.compile (.notToken f.text))

/-- The tokens of fragments, given how to compile a call; the queued texts go to the call fragments
in order. -/
def tokensOf (w : Nat) (call : String → Except Fault Operand) :
    List Fragment → List String → Except Fault (List (Token Operand))
  | [], _ => .ok []
  | f :: rest, calls =>
    match f.kind, calls with
    | .call, text :: calls => do
      let operand ← call text
      let tokens ← tokensOf w call rest calls
      return .operand operand :: tokens
    | _, calls => do
      let token ← plainToken w f
      let tokens ← tokensOf w call rest calls
      return token :: tokens

/-- Compiles a source, given how to compile a call. -/
def ofSourceWith (w : Nat) (call : String → Except Fault Operand) (source : String) :
    Except Fault Operand := do
  let lexed ← Lexed.ofSource source
  let tokens ← tokensOf w call lexed.fragments lexed.calls
  match tokens with
  | [.operand operand] => .ok operand
  | [_] => .error (.compile (.notExpression source))
  | tokens =>
    match Token.checkOrder Operand.text tokens with
    | .error fault => .error (.compile fault)
    | .ok () => .ok (.expression tokens)

/-- Compiles a source in which calls nest at most `depth` deep. -/
def compile (w : Nat) : Nat → String → Except Fault Operand
  | 0, source => ofSourceWith w (fun _ => .error (.depth .nestedCalls)) source
  | depth + 1, source => ofSourceWith w (ofCallWith (compile w depth)) source

def ofCall (w : Nat) : Nat → String → Except Fault Operand
  | 0, _ => .error (.depth .nestedCalls)
  | depth + 1, text => ofCallWith (compile w depth) text

theorem compile_eq (w depth : Nat) (source : String) :
    compile w depth source = ofSourceWith w (ofCall w depth) source := by
  cases depth <;> rfl

end Reckoner.Operand
