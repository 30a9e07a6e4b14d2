import Reckoner.Context.Basic

/-!
# Listings

The help text, and the listing of what a context holds: first what it always has, then what the
user defined.
-/

namespace Reckoner

def helpText : String :=
  "memocalc quick help:\n" ++
  "  reset              removes all user-defined variables and functions\n" ++
  "  exit               leaves the calculator\n" ++
  "  help               shows this text\n" ++
  "  env                lists all variables and functions\n" ++
  "  del <name>         deletes a variable or function\n" ++
  "  precision <n>      sets the number of significant digits\n" ++
  "  precision auto     prints every value in scientific notation\n" ++
  "\n" ++
  "Expressions: 3 + 2 * (5 - x). Whitespace is stripped, so `1 2 3` reads as `123`.\n" ++
  "Calls use brackets: f[x], sin[pi/2], min[2,3], sum[k,1,10,k^2].\n" ++
  "Variables: x = 5 + 4. The last result is kept in ans.\n" ++
  "Functions: f[x] = x^2 or g[] = 3. Parameters shadow globals during a call.\n" ++
  "Base cases: f[0] = 1 or g[0,0] = 2. Arguments and value must be numerals.\n"

namespace Context

def precisionLine (c : Context) : String :=
  match c.precision with
  | .auto => "Global precision: auto"
  | .digits n _ => "Global precision: " ++ n.repr ++ " digits"

/-- The lines about the variables whose names pass a test. -/
def variableLines (c : Context) (test : String → Bool) : List String :=
  (c.vars.toList.filter (fun entry => test entry.1)).map (fun entry =>
    "  " ++ entry.1 ++ " = " ++ entry.2.text c.precision)

/-- The lines about the functions whose names pass a test. -/
def functionLines (c : Context) (test : String → Bool) : List String :=
  (c.functions.toList.filter (fun entry => test entry.1)).flatMap (fun entry =>
    (entry.2.descriptionLines c.precision entry.1).map ("  " ++ ·))

def listingLines (c : Context) : List String :=
  [c.precisionLine, "Internal variables:"] ++ c.variableLines Reserved.isConstant ++
    ["", "Internal functions:"] ++ c.functionLines Builtin.isName ++
    ["", "User-defined variables:"] ++ c.variableLines (fun name => !Reserved.isConstant name) ++
    ["", "User-defined functions:"] ++ c.functionLines (fun name => !Builtin.isName name)

def listing (c : Context) : String := String.intercalate "\n" c.listingLines

end Context

end Reckoner
