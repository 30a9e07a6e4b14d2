import Reckoner.Evaluation
import Reckoner.Session.Command
import Reckoner.Session.Listing

/-!
# Sessions

A session runs lines one after the other on a context.  A line gives a reply; a fault of one of the
reported kinds is a reply too.  Every definition makes the functions forget that depend on the name,
and every value becomes `ans`.
-/

namespace Reckoner

/-- What a line is answered with. -/
structure Reply where
  output : String
  kind : Option FaultKind
  exit : Bool
deriving DecidableEq

def Reply.ofOutput (output : String) : Reply := ⟨output, none, false⟩

namespace Session

/-! ## Definitions -/

/-- Whether a name is kept from being defined as a function. -/
def isReservedFunction (name : String) : Bool := Builtin.isName name || Reserved.isCommand name

/-- Checks that parameters are free and differ from each other; `seen` are those before. -/
def checkParams (c : Context) (function : String) (seen : List String) :
    List String → Except CompileFault Unit
  | [] => .ok ()
  | param :: rest =>
    if c.isTaken param then .error (.argumentTaken param)
    else if seen.contains param then .error (.duplicateArgument function param)
    else checkParams c function (param :: seen) rest

/-- A newly defined function; it keeps the base cases of a former one with as many parameters. -/
def redefine (former : Option UserFunction) (params : List String) (body : Operand) :
    UserFunction :=
  let f := UserFunction.define params (some body)
  match former with
  | some former => if former.arity = f.arity then f.adoptBaseCases former else f
  | none => f

/-- Makes a name a user function and has what depends on the name forgotten. -/
def install (name : String) (f : UserFunction) : Action String := do
  Action.change (fun c => (c.setFunction name (.user f)).invalidate name)
  let c ← Action.context
  pure (f.description c.precision name)

/-- Gives a function parameters and a body. -/
def defineFunction (name : String) (params : List String) (body : String) : Action String := do
  if isReservedFunction name then .fail (.compile (.reservedFunction name))
  else
    let c ← Action.context
    match checkParams c name [] params with
    | .error cause => .fail (.compile cause)
    | .ok () =>
      let body ← Evaluation.compile body
      install name (redefine (c.user? name) params body)

/-- The function that a base case is put into: the present one, or one with base cases only. -/
def baseCaseHost (former : Option UserFunction) (count : Nat) : UserFunction :=
  former.getD (UserFunction.define ((List.range count).map Builtin.slot) none)

/-- Gives a function a base case. -/
def defineBaseCase (name : String) (args : List String) (value : String) : Action String := do
  if isReservedFunction name then .fail (.compile (.reservedFunction name))
  else
    let c ← Action.context
    let args ← Action.ofExcept (args.mapM (Operand.numeralValue c.bits))
    let value ← Action.ofExcept (Operand.numeralValue c.bits value)
    let f := baseCaseHost (c.user? name) args.length
    if f.arity ≠ args.length then .fail (.compile (.baseCaseArity name f.arity args.length))
    else install name (f.putBaseCase args value).forget

/-- Sets a variable and has what depends on it forgotten. -/
def assign (name : String) (value : Number) : Action Unit :=
  Action.change (fun c => (c.setVariable name value).invalidate name)

/-- Gives a variable a value. -/
def defineVariable (name value : String) : Action String := do
  if Reserved.isConstant name || Reserved.isCommand name then
    .fail (.compile (.reservedVariable name))
  else
    let operand ← Evaluation.compile value
    let value ← operand.evaluate
    assign name value
    assign "ans" value
    let c ← Action.context
    pure (name ++ " := " ++ value.text c.precision)

def define : Definition → Action String
  | .function name params body => defineFunction name params body
  | .baseCase name args value => defineBaseCase name args value
  | .var name value => defineVariable name value

/-! ## Commands -/

/-- Evaluates an expression. -/
def evaluate (source : String) : Action String := do
  let operand ← Evaluation.compile source
  let value ← operand.evaluate
  assign "ans" value
  let c ← Action.context
  pure (value.text c.precision)

/-- Deletes a variable, or else a function, of a name. -/
def delete (name : String) : Action String := do
  let c ← Action.context
  if c.hasVariable name then
    if Reserved.isConstant name then pure ("Cannot delete reserved variable " ++ quoted name)
    else
      Action.change (fun c => (c.eraseVariable name).invalidate name)
      pure ("Deleted variable " ++ quoted name)
  else if c.hasFunction name then
    if Builtin.isName name then pure ("Cannot delete reserved function " ++ quoted name)
    else
      Action.change (fun c => (c.eraseFunction name).invalidate name)
      pure ("Deleted function " ++ quoted name)
  else pure ("Variable or function " ++ quoted name ++ " not found.")

def precisionText : Precision → String
  | .auto => "auto (significant figures)."
  | .digits n _ => n.repr ++ " digit(s)."

/-- The most digits that a digit count can be written with. -/
def maxPrecisionLength : Nat := 9

/-- The precision that a word asks for. -/
def readPrecision? (word : String) : Option Precision :=
  if word = "auto" then some .auto
  else
    let digits := word.toList
    if digits.all Char.isDigit && digits.length ≤ maxPrecisionLength then
      Precision.ofDigits? (Decimal.natOfDigits digits)
    else none

def setPrecision (word : String) : Action String := do
  match readPrecision? word with
  | none => pure "Invalid precision value. Must be a positive number."
  | some p =>
    Action.change (fun c => c.setPrecision p)
    pure ("Precision set to " ++ precisionText p)

/-- Carries a command out that does not end the session. -/
def perform : Command → Action String
  | .nothing => pure ""
  | .exit => pure ""
  | .delete name => delete name
  | .deleteUsage => pure "Invalid command. Usage: del <name>"
  | .showPrecision => do
    let c ← Action.context
    pure ("Precision is " ++ precisionText c.precision)
  | .setPrecision word => setPrecision word
  | .precisionUsage => pure "Invalid command. Usage: precision <number> | precision auto"
  | .tooLong => .fail (.compile (.inputTooLong Lexed.maxLength))
  | .reset => do
    Action.change Context.reset
    pure "All variables and functions have been reset."
  | .help => pure helpText
  | .environment => do
    let c ← Action.context
    pure c.listing
  | .define definition => define definition
  | .evaluate source => evaluate source

/-! ## Lines -/

/-- The reply to a fault, if it is of a reported kind. -/
def faultReply? (fault : Fault) : Option Reply :=
  fault.kind?.map (fun kind => ⟨kind.label ++ " error: " ++ fault.message, some kind, false⟩)

/-- Runs a line.  A fault that is not of a reported kind is no reply. -/
def execute (line : String) : Action Reply :=
  ⟨fun c =>
    let command := Command.ofLine line
    match (perform command).run c with
    | (.ok output, c) => (.ok ⟨output, none, command = .exit⟩, c)
    | (.error fault, c) =>
      match faultReply? fault with
      | some reply => (.ok reply, c)
      | none => (.error fault, c)⟩

end Session

end Reckoner
