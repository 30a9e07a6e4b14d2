/-!
# Faults

What can go wrong, as causes.  A fault belongs to one of three kinds that are reported to the user,
or it is a defect of a hand-made operand, or it is a count that never ends.  `Fault.wording` holds
all the texts; a message ends at the first NUL character of the wording.
-/

namespace Reckoner

/-- A token that stands where it cannot, found while compiling or while evaluating. -/
inductive OrderFault where
  | unexpectedOperand (text : String)
  | unexpectedOpening (symbol : Char)
  | unexpectedClosing (symbol : Char)
  | unexpectedOperator (symbol : Char)
  | unmatchedClosing (symbol : Char)
  | unmatchedGrouping (symbol : Char)
deriving DecidableEq

/-- A summation or product whose arguments have the wrong shape. -/
inductive ReductionFault where
  | argumentCount (function : String)
  | counterNotVariable (function : String)
deriving DecidableEq

/-- Causes found before anything is evaluated. -/
inductive CompileFault where
  | inputTooLong (limit : Nat)
  | notExpression (text : String)
  | missingBracket (text : String) (position : Nat)
  | notToken (text : String)
  | notNumeral (text : String)
  | notVariable (text : String)
  | notOperator (text : String)
  | notGrouper (text : String)
  | notCall (text : String)
  | order (fault : OrderFault)
  | missingOperand
  | reduction (fault : ReductionFault)
  | reservedFunction (name : String)
  | reservedVariable (name : String)
  | argumentTaken (name : String)
  | duplicateArgument (function name : String)
  | baseCaseArity (function : String) (arity given : Nat)
deriving DecidableEq

/-- Causes found during evaluation. -/
inductive EvalFault where
  | order (fault : OrderFault)
  | mismatchedGrouping (opening closing : Char)
  | missingOperand (symbol : Char)
  | notSingleValue
  | reduction (fault : ReductionFault)
  | counterTaken (function counter : String)
  | boundsNotIntegers (function : String)
  | boundsReversed (function first last : String)
  | undefinedVariable (name : String)
  | undefinedFunction (name : String)
  | wrongArity (function : String) (arity given : Nat)
  | noDefinition (function arguments : String)
  | notReal (function : String)
  | notInteger (function : String)
  | notNatural (function : String)
  | undefinedAt (function place : String)
  | digitsNotPositive (function : String)
  | digitsLimit (function : String) (limit : Nat)
  | divisionByZero
  | complexRemainder
  | report (what text : String)
deriving DecidableEq

/-- Calls that nest too deep, in a text or during evaluation. -/
inductive DepthFault where
  | nestedCalls
  | recursion
deriving DecidableEq

/-- Defects that only operands made by hand can show. -/
inductive Defect where
  | missingCallText
  | unknownOperator (symbol : Char)
  | unknownGrouper (symbol : Char)
  | noImplementation (function : String)
deriving DecidableEq

/-- What went wrong. -/
inductive Fault where
  | compile (cause : CompileFault)
  | eval (cause : EvalFault)
  | depth (cause : DepthFault)
  | defect (cause : Defect)
  | endless
deriving DecidableEq

/-- The kinds of fault that are reported to the user. -/
inductive FaultKind where
  | compile
  | eval
  | recursion
deriving DecidableEq

def FaultKind.label : FaultKind → String
  | .compile => "Compile"
  | .eval => "Eval"
  | .recursion => "Recursion"

/-- The kind of a fault, if it is one that is reported to the user. -/
def Fault.kind? : Fault → Option FaultKind
  | .compile _ => some .compile
  | .eval _ => some .eval
  | .depth _ => some .recursion
  | .defect _ => none
  | .endless => none

/-! ## Wording -/

def quoted (text : String) : String := "\"" ++ text ++ "\""

def quotedChar (c : Char) : String := quoted (String.singleton c)

/-- A function named in a message. -/
def functionLabel (name : String) : String := "function " ++ quoted name

def operatorLabel (symbol : Char) : String := "operator " ++ quotedChar symbol

/-- The wording for a token that stands where it cannot. -/
def OrderFault.message : OrderFault → String
  | .unexpectedOperand text => "unexpected operand " ++ quoted text
  | .unexpectedOpening symbol => "unexpected opening symbol " ++ quotedChar symbol
  | .unexpectedClosing symbol => "unexpected closing symbol " ++ quotedChar symbol
  | .unexpectedOperator symbol => "unexpected operator " ++ quotedChar symbol
  | .unmatchedClosing symbol => "unmatched closing symbol " ++ quotedChar symbol
  | .unmatchedGrouping symbol => "unmatched grouping symbol " ++ quotedChar symbol

/-- The wording for a summation or product of the wrong shape. -/
def ReductionFault.message : ReductionFault → String
  | .argumentCount function => functionLabel function ++ " must have exactly four arguments"
  | .counterNotVariable function => functionLabel function ++ " first argument must be a variable"

/-- The wording for causes found before evaluation. -/
def CompileFault.message : CompileFault → String
  | .inputTooLong limit => "input is longer than " ++ limit.repr ++ " characters"
  | .notExpression text => quoted text ++ " is not a valid calculator expression"
  | .missingBracket text position =>
    quoted text ++ " missing closing function bracket ] at position " ++ position.repr
  | .notToken text => quoted text ++ " is not a valid token"
  | .notNumeral text => quoted text ++ " is not a valid numeral"
  | .notVariable text => quoted text ++ " is not a valid variable"
  | .notOperator text => quoted text ++ " is not a valid binary operator"
  | .notGrouper text => quoted text ++ " is not a valid grouping symbol"
  | .notCall text => quoted text ++ " is not a valid function call"
  | .order fault => fault.message
  | .missingOperand => "not enough operands for the last operator"
  | .reduction fault => fault.message
  | .reservedFunction name => quoted name ++ " is a reserved keyword and cannot be redefined"
  | .reservedVariable name => quoted name ++ " is a reserved keyword and cannot be reassigned"
  | .argumentTaken name =>
    quoted name ++ " is already defined and cannot be used as a function argument"
  | .duplicateArgument function name =>
    functionLabel function ++ " has duplicate argument " ++ quoted name
  | .baseCaseArity function arity given =>
    functionLabel function ++ " takes " ++ arity.repr ++ " argument(s) but the base case has " ++
      given.repr

/-- The wording for causes found during evaluation. -/
def EvalFault.message : EvalFault → String
  | .order fault => fault.message
  | .mismatchedGrouping opening closing =>
    "mismatched grouping symbols " ++ quotedChar opening ++ " and " ++ quotedChar closing
  | .missingOperand symbol => "not enough operands for " ++ operatorLabel symbol
  | .notSingleValue => "expression does not evaluate to a single value"
  | .reduction fault => fault.message
  | .counterTaken function counter =>
    functionLabel function ++ " counter " ++ quoted counter ++ " is already defined"
  | .boundsNotIntegers function => functionLabel function ++ " bounds must be integers"
  | .boundsReversed function first last =>
    functionLabel function ++ " start bound " ++ first ++ " is greater than end bound " ++ last
  | .undefinedVariable name => "variable " ++ quoted name ++ " is not defined"
  | .undefinedFunction name => functionLabel name ++ " is not defined"
  | .wrongArity function arity given =>
    functionLabel function ++ " takes " ++ arity.repr ++ " argument(s) but " ++ given.repr ++
      " were given"
  | .noDefinition function arguments =>
    functionLabel function ++ " has no definition for [" ++ arguments ++ "]"
  | .notReal function => functionLabel function ++ " requires real argument(s)"
  | .notInteger function => functionLabel function ++ " requires integer argument(s)"
  | .notNatural function => functionLabel function ++ " requires non-negative integer argument(s)"
  | .undefinedAt function place => functionLabel function ++ " is undefined at " ++ place
  | .digitsNotPositive function => functionLabel function ++ " requires a positive number of digits"
  | .digitsLimit function limit =>
    functionLabel function ++ " is limited to " ++ limit.repr ++ " digits"
  | .divisionByZero => "Division by zero."
  | .complexRemainder => "cannot apply remainder operator to complex numbers."
  | .report what text => what ++ ": " ++ text

def DepthFault.message : DepthFault → String
  | .nestedCalls => "function calls nested too deep"
  | .recursion => "function recursion too deep"

def Defect.message : Defect → String
  | .missingCallText => "INTERNAL ERROR: call placeholder without queued call text"
  | .unknownOperator symbol =>
    "INTERNAL ERROR: operator " ++ String.singleton symbol ++ " not implemented"
  | .unknownGrouper symbol => "INTERNAL ERROR: unknown grouper " ++ String.singleton symbol
  | .noImplementation function =>
    "INTERNAL ERROR: builtin " ++ quoted function ++ " has no direct implementation"

/-- The full wording of a fault. -/
def Fault.wording : Fault → String
  | .compile cause => cause.message
  | .eval cause => cause.message
  | .depth cause => cause.message
  | .defect cause => cause.message
  | .endless => "the counter does not advance"

/-- The part of a text before its first NUL character. -/
def beforeNul (text : String) : String :=
  String.ofList (text.toList.takeWhile (fun c => c != '\x00'))

/-- The message of a fault: its wording up to the first NUL character. -/
def Fault.message (fault : Fault) : String := beforeNul fault.wording

end Reckoner
