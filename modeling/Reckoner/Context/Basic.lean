import Reckoner.Function.Basic
import Reckoner.Text

/-!
# Contexts

A context holds what evaluation depends on: the variables, the functions, how numbers are computed
and shown, how deep calls are and may be nested, and the random digits to come.  Function parameters
and counters are bound in the same variables for as long as a call takes.
-/

namespace Reckoner

/-- What a fresh context is made with.  Any source of decimal digits may stand for chance. -/
structure Settings where
  library : Library
  precision : Precision
  ceiling : Nat
  chance : Nat → Fin 10

/-- The settings of a calculator that is told nothing else. -/
def Settings.standard : Settings := ⟨.plain, .standard, 1000, fun i => .ofNat 10 (i + 1)⟩

/-- The state of a calculator. -/
structure Context where
  vars : Std.ExtTreeMap String Number
  functions : Std.ExtTreeMap String Function
  numerics : Numerics
  ceiling : Nat
  depth : Nat
  chance : Nat → Fin 10

namespace Context

def precision (c : Context) : Precision := c.numerics.precision

/-- The working width in bits. -/
def bits (c : Context) : Nat := c.numerics.bits

/-! ## Variables -/

def valueOf? (c : Context) (name : String) : Option Number := c.vars[name]?

def hasVariable (c : Context) (name : String) : Bool := c.vars.contains name

def setVariable (c : Context) (name : String) (value : Number) : Context :=
  { c with vars := c.vars.insert name value }

def eraseVariable (c : Context) (name : String) : Context :=
  { c with vars := c.vars.erase name }

/-! ## Functions -/

def function? (c : Context) (name : String) : Option Function := c.functions[name]?

def hasFunction (c : Context) (name : String) : Bool := c.functions.contains name

def setFunction (c : Context) (name : String) (f : Function) : Context :=
  { c with functions := c.functions.insert name f }

def eraseFunction (c : Context) (name : String) : Context :=
  { c with functions := c.functions.erase name }

/-- The user function of a name, if it has one. -/
def user? (c : Context) (name : String) : Option UserFunction :=
  (c.function? name).bind Function.user?

/-- Changes the user function of a name, if it has one. -/
def updateUser (c : Context) (name : String) (change : UserFunction → UserFunction) : Context :=
  match c.user? name with
  | some f => c.setFunction name (.user (change f))
  | none => c

/-- Whether a name can no longer be bound: it is a variable, a function or a command. -/
def isTaken (c : Context) (name : String) : Bool :=
  c.hasVariable name || c.hasFunction name || Reserved.isCommand name

/-! ## Constants and precision -/

/-- Sets the constants to their values at the working width. -/
def setConstants (c : Context) : Context :=
  let L := c.numerics.library
  ((c.setVariable "i" .unit).setVariable "pi" (.ofReal (L.pi c.bits))).setVariable "e"
    (.ofReal (L.euler c.bits))

/-- The functions of a fresh context. -/
def builtins : Std.ExtTreeMap String Function :=
  Std.ExtTreeMap.ofList (Builtin.all.map (fun b => (b.name, Function.builtin b)))

/-- A context in which nothing is defined. -/
def empty (s : Settings) : Context :=
  ⟨∅, ∅, .start s.library s.precision, s.ceiling, 0, s.chance⟩

/-- The context that a session starts with. -/
def fresh (s : Settings) : Context :=
  ({ empty s with functions := builtins } : Context).setConstants.setVariable "ans" 0

/-- Forgets the remembered values of every function. -/
def invalidateAll (c : Context) : Context :=
  { c with functions := c.functions.map (fun _ f => f.forget) }

/-- The constants, and values computed from now on, have another precision. -/
def rescale (c : Context) (p : Precision) : Context :=
  ({ c with numerics := c.numerics.setPrecision p } : Context).setConstants

/-- Changes the precision; values of the former one are not remembered. -/
def setPrecision (c : Context) (p : Precision) : Context := (c.rescale p).invalidateAll

/-- Removes all that the user defined. -/
def reset (c : Context) : Context :=
  ({ c with
      vars := c.vars.filter (fun name _ => Reserved.isConstant name)
      functions := c.functions.filter (fun name _ => Builtin.isName name) } : Context).invalidateAll

/-! ## Dependence

When the meaning of a name changes, every function that refers to it, directly or through other
functions, forgets its values.  The names whose meaning may have changed are collected in rounds: a
round adds the functions that refer to a name collected so far.
-/

def refersTo (f : Function) (names : Names) : Bool :=
  f.references.toList.any (fun name => names.contains name)

/-- The names with the functions that refer to one of them. -/
def withReferrers (c : Context) (names : Names) : Names :=
  c.functions.toList.foldl
    (fun acc entry => if refersTo entry.2 names then acc.insert entry.1 else acc) names

/-- The names collected in at most a number of rounds, stopping when a round adds nothing. -/
def collect (c : Context) : Nat → Names → Names
  | 0, names => names
  | rounds + 1, names =>
    let more := c.withReferrers names
    if more.size = names.size then names else c.collect rounds more

/-- A name with the functions that depend on it; each round but the last adds a function. -/
def affected (c : Context) (name : String) : Names := c.collect c.functions.size {name}

/-- Forgets the values of the functions that depend on a name. -/
def invalidate (c : Context) (name : String) : Context :=
  let names := c.affected name
  { c with functions := c.functions.map (fun _ f => if refersTo f names then f.forget else f) }

/-! ## Depth -/

/-- Goes one call deeper, unless the ceiling is reached. -/
def enter (c : Context) : Except Fault Context :=
  if c.depth < c.ceiling then .ok { c with depth := c.depth + 1 } else .error (.depth .recursion)

def leave (c : Context) : Context := { c with depth := c.depth - 1 }

/-! ## Laws -/

theorem valueOf?_setVariable (c : Context) (name other : String) (value : Number) :
    (c.setVariable name value).valueOf? other =
      if name = other then some value else c.valueOf? other := by
  simp [valueOf?, setVariable, Std.ExtTreeMap.getElem?_insert]

theorem valueOf?_eraseVariable (c : Context) (name other : String) :
    (c.eraseVariable name).valueOf? other = if name = other then none else c.valueOf? other := by
  simp [valueOf?, eraseVariable, Std.ExtTreeMap.getElem?_erase]

theorem function?_setFunction (c : Context) (name other : String) (f : Function) :
    (c.setFunction name f).function? other =
      if name = other then some f else c.function? other := by
  simp [function?, setFunction, Std.ExtTreeMap.getElem?_insert]

theorem function?_eraseFunction (c : Context) (name other : String) :
    (c.eraseFunction name).function? other = if name = other then none else c.function? other := by
  simp [function?, eraseFunction, Std.ExtTreeMap.getElem?_erase]

@[simp] theorem function?_setVariable (c : Context) (name other : String) (value : Number) :
    (c.setVariable name value).function? other = c.function? other := rfl

@[simp] theorem function?_empty (s : Settings) (name : String) :
    (empty s).function? name = none := by
  simp [function?, empty]

theorem enter_eq_ok_iff (c c' : Context) :
    c.enter = .ok c' ↔ c.depth < c.ceiling ∧ c' = { c with depth := c.depth + 1 } := by
  unfold enter
  split
  case isTrue h =>
    rw [Except.ok.injEq]
    exact ⟨fun e => ⟨h, e.symm⟩, fun e => e.2.symm⟩
  case isFalse h => simp [h]

theorem leave_of_enter {c c' : Context} (h : c.enter = .ok c') : c'.leave = c := by
  obtain ⟨_, rfl⟩ := (enter_eq_ok_iff c c').1 h
  rfl

end Context

end Reckoner
