import Reckoner.Fragment.Basic

/-!
# Calls in a text

A name directly followed by `[` opens a call, and the call ends at the bracket that closes this one.
Only outermost calls are cut out: what is inside stays part of the call's text.

The arguments of a call are separated by the commas that stand outside brackets.  The text need not
be balanced: the depth counts opened less closed brackets and may be negative.
-/

namespace Reckoner.Fragment

/-- A text through the bracket that closes the `depth` brackets open before it, and the rest. -/
def spanClosing? : Nat → List Char → Option (List Char × List Char)
  | _, [] => none
  | depth, c :: cs =>
    let depth := if c == '[' then depth + 1 else if c == ']' then depth - 1 else depth
    if depth = 0 then some ([c], cs)
    else (spanClosing? depth cs).map (fun (inner, rest) => (c :: inner, rest))

/-- A text with a placeholder for each outermost call, and the texts of these calls. -/
structure Extracted where
  text : List Char
  calls : List String
deriving DecidableEq

/-- Puts plain characters before an extracted text. -/
def Extracted.plain (cs : List Char) (e : Extracted) : Extracted := ⟨cs ++ e.text, e.calls⟩

/-- Puts a call before an extracted text. -/
def Extracted.call (cs : List Char) (e : Extracted) : Extracted :=
  ⟨placeholder :: e.text, String.ofList cs :: e.calls⟩

/-- Cuts the outermost calls out, given at least as much fuel as the text has characters; there is
no result if a call is not closed. -/
def extractWith? : Nat → List Char → Option Extracted
  | 0, _ => some ⟨[], []⟩
  | _ + 1, [] => some ⟨[], []⟩
  | fuel + 1, c :: cs =>
    if Text.isNameStart c then
      let name := c :: cs.takeWhile Text.isNameChar
      match cs.dropWhile Text.isNameChar with
      | '[' :: tail =>
        match spanClosing? 1 tail with
        | none => none
        | some (inner, rest) => (extractWith? fuel rest).map (.call (name ++ '[' :: inner))
      | rest => (extractWith? fuel rest).map (.plain name)
    else (extractWith? fuel cs).map (.plain [c])

/-- Cuts the outermost calls out of a text; there is no result if a call is not closed. -/
def extract? (cs : List Char) : Option Extracted := extractWith? cs.length cs

/-! ## Arguments -/

def depthAfter (depth : Int) (c : Char) : Int :=
  if c == '[' then depth + 1 else if c == ']' then depth - 1 else depth

def consFirst (c : Char) : List (List Char) → List (List Char)
  | [] => [[c]]
  | part :: parts => (c :: part) :: parts

/-- Splits a text at the commas of depth zero, starting at a given depth. -/
def splitFrom : Int → List Char → List (List Char)
  | _, [] => [[]]
  | depth, c :: cs =>
    if c == ',' && depth == 0 then [] :: splitFrom depth cs
    else consFirst c (splitFrom (depthAfter depth c) cs)

/-- The arguments in the text between the brackets of a call; an empty text has none. -/
def splitArguments (cs : List Char) : List (List Char) :=
  if cs.isEmpty then [] else splitFrom 0 cs

@[simp] theorem splitArguments_nil : splitArguments [] = [] := rfl

end Reckoner.Fragment
