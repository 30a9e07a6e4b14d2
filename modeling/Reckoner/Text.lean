/-!
# Blanks, words and names

Six ASCII characters are blank.  A line is read either as its blank-separated words or with all its
blanks taken out.  A name is an ASCII letter or an underscore, followed by letters, digits and
underscores; some names are reserved.
-/

namespace Reckoner

namespace Text

def isBlank (c : Char) : Bool :=
  c == ' ' || c == '\t' || c == '\n' || c == '\x0b' || c == '\x0c' || c == '\r'

/-- The text without its blanks. -/
def strip (cs : List Char) : List Char := cs.filter (fun c => !isBlank c)

/-- The maximal runs of characters that are not blank; `current` is the run being read, last
character first. -/
def wordsFrom : List Char → List Char → List (List Char)
  | current, [] => if current.isEmpty then [] else [current.reverse]
  | current, c :: cs =>
    if isBlank c then
      if current.isEmpty then wordsFrom [] cs else current.reverse :: wordsFrom [] cs
    else wordsFrom (c :: current) cs

def words (cs : List Char) : List (List Char) := wordsFrom [] cs

/-! ## Names -/

def isNameStart (c : Char) : Bool := c.isAlpha || c == '_'

def isNameChar (c : Char) : Bool := c.isAlphanum || c == '_'

def isName : List Char → Bool
  | [] => false
  | c :: cs => isNameStart c && cs.all isNameChar

theorem isNameChar_of_isNameStart {c : Char} (h : isNameStart c = true) : isNameChar c = true := by
  simp only [isNameStart, Bool.or_eq_true] at h
  simp only [isNameChar, Char.isAlphanum, Bool.or_eq_true]
  exact h.imp .inl id

end Text

/-! ## Reserved names -/

namespace Reserved

/-- The words that start a command. -/
def commands : List String := ["reset", "exit", "help", "env", "del", "precision"]

/-- The variables that a context always has. -/
def constants : List String := ["i", "pi", "e", "ans"]

/-- The functions that bind a counter: summation and product. -/
def reductions : List String := ["sum", "prod"]

def isCommand (name : String) : Bool := commands.contains name

def isConstant (name : String) : Bool := constants.contains name

def isReduction (name : String) : Bool := reductions.contains name

end Reserved

end Reckoner
