import Reckoner.Number.Arithmetic
import Reckoner.Number.Text

/-!
# Functions that are built in

Each built-in function has a name, a number of arguments, a restriction on its arguments and a line
of documentation.  A call checks the arguments (`Builtin.check`), finds the number of digits if the
function is a constant that asks for its own (`Builtin.ownDigits?`), and computes the value
(`Builtin.value`).  Summation and product have no value, because their arguments are not evaluated
beforehand.  Elementary functions, the gamma function and the constants come from a library; only
the places where they are undefined are decided here.
-/

namespace Reckoner

inductive Builtin where
  | elementary (f : Elementary)
  | abs | log | sinc
  | conj | re | im | int | min | max | sign | gamma
  | rad | deg | ceil | floor | pi | e
  | rand | randint | choose | perm | sum | prod
deriving DecidableEq

/-- What a function demands of its arguments. -/
inductive Restriction where
  | any
  | real
  | integer
deriving DecidableEq

namespace Builtin

def all : List Builtin :=
  Elementary.all.map elementary ++
    [.abs, .log, .sinc, .conj, .re, .im, .int, .min, .max, .sign, .gamma, .rad, .deg, .ceil, .floor,
      .pi, .e, .rand, .randint, .choose, .perm, .sum, .prod]

def name : Builtin → String
  | .elementary f => f.name
  | .abs => "abs"
  | .log => "log"
  | .sinc => "sinc"
  | .conj => "conj"
  | .re => "re"
  | .im => "im"
  | .int => "int"
  | .min => "min"
  | .max => "max"
  | .sign => "sign"
  | .gamma => "gamma"
  | .rad => "rad"
  | .deg => "deg"
  | .ceil => "ceil"
  | .floor => "floor"
  | .pi => "pi"
  | .e => "e"
  | .rand => "rand"
  | .randint => "randint"
  | .choose => "choose"
  | .perm => "perm"
  | .sum => "sum"
  | .prod => "prod"

def arity : Builtin → Nat
  | .rand => 0
  | .log | .min | .max | .randint | .choose | .perm => 2
  | .sum | .prod => 4
  | _ => 1

/-- What a function demands of its arguments. -/
def restriction : Builtin → Restriction
  | .log | .min | .max | .sign | .gamma | .rad | .deg | .ceil | .floor => .real
  | .pi | .e | .randint | .choose | .perm => .integer
  | _ => .any

/-- A line about a function; most need none. -/
def documentation : Builtin → String
  | .log => "log[base, x]"
  | .conj => "complex conjugate"
  | .re => "real part"
  | .im => "imaginary part"
  | .int => "truncate decimal"
  | .sign => "-1 if negative, 1 if positive, 0 if zero"
  | .gamma => "to calculate n! for positive int n, do gamma[n+1]"
  | .rad => "convert degrees to radians"
  | .deg => "convert radians to degrees"
  | .pi => "calculates pi to number of digits"
  | .e => "calculates e to number of digits"
  | .rand => "random number between 0 and 1"
  | .randint => "random integer between a and b inclusive"
  | .choose => "n choose k"
  | .perm => "n permute k"
  | .sum => "summation of `_3` for `_0` = `_1` to `_2` inclusive, e.g., sum[x, 1, 10, x^2]"
  | .prod => "product of `_3` for `_0` = `_1` to `_2` inclusive, e.g., prod[x, 1, 10, x^2]"
  | _ => ""

def isName (name : String) : Bool := all.any (fun b => b.name == name)

/-- A parameter that only counts. -/
def slot (i : Nat) : String := "_" ++ i.repr

def description (b : Builtin) : String :=
  let slots := String.intercalate ", " ((List.range b.arity).map slot)
  b.name ++ "[" ++ slots ++ "]" ++
    (if b.documentation.isEmpty then "" else ": " ++ b.documentation)

/-! ## Arguments -/

/-- Checks the arguments of a function one by one. -/
def checkRestriction (b : Builtin) : List Number → Except EvalFault Unit
  | [] => .ok ()
  | arg :: rest =>
    match b.restriction with
    | .real => if arg.isReal then checkRestriction b rest else .error (.notReal b.name)
    | .integer => if arg.isInteger then checkRestriction b rest else .error (.notInteger b.name)
    | .any => .ok ()

/-- Checks the number of arguments, then the restriction. -/
def check (b : Builtin) (args : List Number) : Except Fault Unit :=
  if args.length ≠ b.arity then .error (.eval (.wrongArity b.name b.arity args.length))
  else (b.checkRestriction args).mapError .eval

/-- The greatest number of digits of a constant. -/
def maxDigits : Nat := 10000

/-- The number of digits that a constant is asked for. -/
def constantDigits (b : Builtin) (digits : Dyadic) : Except EvalFault Nat :=
  if digits < 1 then .error (.digitsNotPositive b.name)
  else if (.ofInt maxDigits : Dyadic) < digits then .error (.digitsLimit b.name maxDigits)
  else .ok (Binary.toInt digits).toNat

/-- The number of digits that the value is computed to, if it is not the one that is set. -/
def ownDigits? (b : Builtin) (args : List Number) : Except Fault (Option Nat) :=
  match b, args with
  | .pi, [a] | .e, [a] => ((b.constantDigits a.re).map some).mapError .eval
  | _, _ => .ok none

/-- Whether the value of a function hangs on chance. -/
def isRandom : Builtin → Bool
  | .rand | .randint => true
  | _ => false

/-! ## Values -/

abbrev Result (α : Type) := Except (Raised Fault) α

def failWith {α : Type} (cause : EvalFault) : Result α := .error (.fault (.eval cause))

/-- What a library gives. -/
def ofLibrary {α : Type} (result : Except String α) : Result α := result.mapError .report

/-- Fails where the function is undefined at a point. -/
def requireNot (b : Builtin) (z point : Number) : Result Unit :=
  if z = point then failWith (.undefinedAt b.name (point.text .standard)) else .ok ()

/-- Fails where the function is undefined at zero. -/
def requireNonzero (b : Builtin) (z : Number) : Result Unit :=
  if z.isZero then failWith (.undefinedAt b.name "zero") else .ok ()

/-- Fails at a negative number. -/
def requireNatural (b : Builtin) (x : Dyadic) : Result Unit :=
  if x < 0 then failWith (.notNatural b.name) else .ok ()

/-- Fails at the poles of an elementary function. -/
def requireDefined (f : Elementary) (z : Number) : Result Unit :=
  match f with
  | .atan => do
    requireNot (.elementary f) z .unit
    requireNot (.elementary f) z (.neg .unit)
  | .atanh => do
    requireNot (.elementary f) z 1
    requireNot (.elementary f) z (.ofInt (-1))
  | .ln | .log10 => requireNonzero (.elementary f) z
  | _ => .ok ()

def quotient (w : Nat) (a b : Number) : Result Number := (Number.div w a b).mapError .fault

/-- The result of a count that never ends. -/
def stuck {α : Type} : Result α := .error (.fault .endless)

/-- The number of ways to choose `k` of `n`, by one product and one quotient for each of the smaller
of `k` and `n - k`. -/
def chooseValue (w : Nat) (n k : Dyadic) : Result Dyadic :=
  if n < k then .ok 0
  else
    let rest := Binary.sub w n k
    let smaller := if rest < k then rest else k
    let base := Binary.sub w n smaller
    let step (i r : Dyadic) : Result Dyadic :=
      .ok (Binary.div w (Binary.mul w r (Binary.add w base i)) i)
    (Binary.countThrough w 1 smaller stuck step 1).map Binary.round

/-- The product of the `k` numbers up to `n`. -/
def permValue (w : Nat) (n k : Dyadic) : Result Dyadic :=
  if n < k then .ok 0
  else
    let first := Binary.add w (Binary.sub w n k) 1
    Binary.countThrough w first n stuck (fun i r => .ok (Binary.mul w r i)) 1

def signValue (x : Dyadic) : Number := if 0 < x then 1 else if x < 0 then .ofInt (-1) else 0

/-- An integer between two others, at a fraction of the way. -/
def integerAt (w : Nat) (fraction a b : Dyadic) : Dyadic :=
  let low := if b < a then b else a
  let high := if b < a then a else b
  let range := Binary.add w (Binary.sub w high low) 1
  Binary.add w low (Binary.floor (Binary.mul w fraction range))

/-- The value of a function whose first two arguments are `x` and `y`; `fraction` is a random number
between zero and one. -/
def run (L : Library) (w : Nat) (fraction : Dyadic) (b : Builtin) (x y : Number) : Result Number :=
  match b with
  | .elementary f => do
    requireDefined f x
    ofLibrary (L.elementary f w x)
  | .abs => .ok (.ofReal (Number.abs w x))
  | .log => do
    requireNonzero b x
    requireNonzero b y
    let base ← ofLibrary (L.elementary .ln w x)
    let value ← ofLibrary (L.elementary .ln w y)
    quotient w value base
  | .sinc =>
    if x.isZero then .ok 1
    else do
      let sine ← ofLibrary (L.elementary .sin w x)
      quotient w sine x
  | .conj => .ok ⟨x.re, -x.im⟩
  | .re => .ok (.ofReal x.re)
  | .im => .ok (.ofReal x.im)
  | .int => .ok (.ofReal (Binary.trunc x.re))
  | .min => .ok (if x.re ≤ y.re then x else y)
  | .max => .ok (if y.re ≤ x.re then x else y)
  | .sign => .ok (signValue x.re)
  | .gamma =>
    if x.isInteger && decide (x.re ≤ 0) then
      failWith (.undefinedAt b.name "non-positive integers")
    else (ofLibrary (L.gamma w x.re)).map .ofReal
  | .rad => .ok (.ofReal (Binary.div w (Binary.mul w x.re (L.pi w)) 180))
  | .deg => .ok (.ofReal (Binary.div w (Binary.mul w x.re 180) (L.pi w)))
  | .ceil => .ok (.ofReal (Binary.ceil x.re))
  | .floor => .ok (.ofReal (Binary.floor x.re))
  | .pi => .ok (.ofReal (L.pi w))
  | .e => .ok (.ofReal (L.euler w))
  | .rand => .ok (.ofReal fraction)
  | .randint => .ok (.ofReal (integerAt w fraction x.re y.re))
  | .choose => do
    requireNatural b x.re
    requireNatural b y.re
    (chooseValue w x.re y.re).map .ofReal
  | .perm => do
    requireNatural b x.re
    requireNatural b y.re
    (permValue w x.re y.re).map .ofReal
  | .sum | .prod => .error (.fault (.defect (.noImplementation b.name)))

/-- The value of a function at arguments that passed the check, with reports as faults that name the
function. -/
def value (L : Library) (w : Nat) (fraction : Dyadic) (b : Builtin) (args : List Number) :
    Except Fault Number :=
  guarded (fun text => .eval (.report (functionLabel b.name) text))
    (b.run L w fraction (args.getD 0 0) (args.getD 1 0))

end Builtin

end Reckoner
