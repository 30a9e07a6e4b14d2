import Reckoner.Action
import Reckoner.Binary.Arithmetic
import Reckoner.Operand.Compile
import Reckoner.Reducer

/-!
# Evaluation

1. Numerals have their value and variables the one bound in the context.
2. An expression is reduced token by token.
3. A call goes one level deeper.  Its arguments are evaluated from left to right and handed to the
   function.  A user function looks at its base cases, then at what it remembers, and then evaluates
   its body with the parameters bound, and remembers the value.
4. Summation and product bind their counter and evaluate their last argument for each value of it.

Evaluation is defined at a number of levels left; at no level left every call fails.  Inside one
level it follows the operand.
-/

namespace Reckoner

namespace Evaluation

/-- The numbers, as values to reduce with. -/
def algebra (m : Numerics) : Algebra Number := ⟨0, Operator.apply m.library m.bits⟩

/-! ## Functions -/

/-- The number whose decimal digits are the first ones of a source. -/
def numberOfDigits (source : Nat → Fin 10) (count : Nat) : Nat :=
  (List.range count).foldl (fun value i => 10 * value + source i) 0

/-- A number from zero to below one with as many random digits as values are shown with. -/
def drawFraction : Action Dyadic :=
  ⟨fun c =>
    let count := c.precision.shown
    let fraction : Decimal := ⟨false, numberOfDigits c.chance count, -(count : Int)⟩
    (.ok (fraction.toDyadic c.bits), { c with chance := fun i => c.chance (count + i) })⟩

/-- A random number for a function that hangs on chance; the others do not look at it. -/
def fractionFor (b : Builtin) : Action Dyadic := if b.isRandom then drawFraction else pure 0

/-- Computes the value of a function that is built in. -/
def computeBuiltin (b : Builtin) (args : List Number) : Action Number := do
  let fraction ← fractionFor b
  let c ← Action.context
  Action.ofExcept (b.value c.numerics.library c.bits fraction args)

/-- Calls a function that is built in. -/
def callBuiltin (b : Builtin) (args : List Number) : Action Number := do
  Action.ofExcept (b.check args)
  match ← Action.ofExcept (b.ownDigits? args) with
  | none => computeBuiltin b args
  | some digits => .withDigits (digits + Precision.guardDigits) (computeBuiltin b args)

/-- Calls a user function, given how to evaluate its body. -/
def callUser (eval : Operand → Action Number) (name : String) (f : UserFunction)
    (args : List Number) : Action Number := do
  if args.length ≠ f.arity then .fail (.eval (.wrongArity name f.arity args.length))
  else
    match f.baseCases.find? args, f.memo.find? args, f.body with
    | some value, _, _ => pure value
    | none, some value, _ => pure value
    | none, none, none => do
      let c ← Action.context
      .fail (.eval (.noDefinition name (UserFunction.argumentsText c.precision args)))
    | none, none, some body => do
      let value ← Action.binding (f.params.zip args) (eval body)
      Action.change (fun c => c.updateUser name (fun f => f.remember args value))
      pure value

def callFunction (eval : Operand → Action Number) (name : String) (args : List Number) :
    Action Number := do
  let c ← Action.context
  match c.function? name with
  | none => .fail (.eval (.undefinedFunction name))
  | some (.builtin b) => callBuiltin b args
  | some (.user f) => callUser eval name f args

/-! ## Summation and product -/

/-- The value of an empty sum or product. -/
def reductionUnit (name : String) : Number := if name = "prod" then 1 else 0

def reductionStep (w : Nat) (name : String) (total term : Number) : Number :=
  if name = "prod" then Number.mul w total term else Number.add w total term

/-- Adds or multiplies the values of a term while a counter runs from `first` through `last`. -/
def countTerms (name counter : String) (first last : Dyadic) (term : Action Number) :
    Action Number := do
  let c ← Action.context
  Action.binding [(counter, .ofReal first)]
    (Binary.countThrough c.bits first last (.fail .endless)
      (fun k total => do
        Action.change (fun c => c.setVariable counter (.ofReal k))
        let value ← term
        pure (reductionStep c.bits name total value))
      (reductionUnit name))

/-- Evaluates the bounds and then counts, given how to evaluate an operand. -/
def evalBounds (eval : Operand → Action Number) (name counter : String)
    (first last term : Operand) : Action Number := do
  let first ← eval first
  let last ← eval last
  if !first.isInteger || !last.isInteger then .fail (.eval (.boundsNotIntegers name))
  else if last.re < first.re then do
    let c ← Action.context
    .fail (.eval (.boundsReversed name (Number.realText c.precision first.re)
      (Number.realText c.precision last.re)))
  else countTerms name counter first.re last.re (eval term)

/-- Evaluates a summation or product, given how to evaluate an operand. -/
def evalReduction (eval : Operand → Action Number) (name : String) (args : List Operand) :
    Action Number :=
  match args with
  | [.var counter, first, last, term] => do
    let c ← Action.context
    if c.isTaken counter then .fail (.eval (.counterTaken name counter))
    else evalBounds eval name counter first last term
  | [_, _, _, _] => .fail (.eval (.reduction (.counterNotVariable name)))
  | _ => .fail (.eval (.reduction (.argumentCount name)))

/-! ## Operands -/

/-- Evaluates a call, given how to evaluate an operand one level deeper. -/
def evalCall (eval : Operand → Action Number) (name : String) (args : List Operand) :
    Action Number :=
  if Reserved.isReduction name then evalReduction eval name args
  else do
    let c ← Action.context
    if c.hasFunction name then
      let values ← args.mapM eval
      callFunction eval name values
    else .fail (.eval (.undefinedFunction name))

def evalVariable (name : String) : Action Number := do
  let c ← Action.context
  match c.valueOf? name with
  | some value => pure value
  | none => .fail (.eval (.undefinedVariable name))

mutual

/-- Evaluates an operand, given how to evaluate a call. -/
def evalOperand (call : String → List Operand → Action Number) : Operand → Action Number
  | .numeral value _ => pure value
  | .var name => evalVariable name
  | .expression tokens => do
    let r ← evalTokens call tokens .start
    let c ← Action.context
    Action.ofExcept (r.finish (algebra c.numerics))
  | .call name args => call name args

/-- Reduces tokens, given how to evaluate a call. -/
def evalTokens (call : String → List Operand → Action Number) :
    List (Token Operand) → Reducer Number → Action (Reducer Number)
  | [], r => pure r
  | .operand o :: rest, r =>
    if r.expecting then do
      let value ← evalOperand call o
      evalTokens call rest (r.pushValue value)
    else .fail (.eval (.order (.unexpectedOperand o.text)))
  | .operator op :: rest, r => do
    let c ← Action.context
    let r ← Action.ofExcept (r.pushOperator (algebra c.numerics) op)
    evalTokens call rest r
  | .grouper g :: rest, r => do
    let c ← Action.context
    let r ← Action.ofExcept (r.pushGrouper (algebra c.numerics) g)
    evalTokens call rest r

end

/-- Evaluates an operand with a number of levels left for calls. -/
def evalAt : Nat → Operand → Action Number
  | 0 => evalOperand (fun _ _ => .fail (.depth .recursion))
  | levels + 1 => evalOperand (fun name args => .deeper (evalCall (evalAt levels) name args))

end Evaluation

def Context.levels (c : Context) : Nat := c.ceiling - c.depth

/-- Evaluates an operand. -/
def Operand.evaluate (o : Operand) : Action Number := do
  let c ← Action.context
  Evaluation.evalAt c.levels o

/-- Calls the function of a name with values, at the depth where the context stands. -/
def Evaluation.apply (name : String) (args : List Number) : Action Number := do
  let c ← Action.context
  Evaluation.callFunction (Evaluation.evalAt c.levels) name args

/-- Puts a base case into the user function of a name, if it has one. -/
def Evaluation.addBaseCase (name : String) (args : List Number) (value : Number) : Action Unit := do
  let c ← Action.context
  match c.user? name with
  | none => pure ()
  | some f =>
    if args.length ≠ f.arity then .fail (.eval (.wrongArity name f.arity args.length))
    else Action.change (fun c => c.updateUser name (fun f => f.putBaseCase args value))

/-- Compiles a source at the working width of the context. -/
def Evaluation.compile (source : String) : Action Operand := do
  let c ← Action.context
  Action.ofExcept (Operand.compile c.bits c.ceiling source)

end Reckoner
