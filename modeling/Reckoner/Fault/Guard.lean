import Reckoner.Fault.Basic

/-!
# Guarded computations

A numeric computation fails either with a fault of its own or with a report of the routine that
carried it out.  `guarded` lets the first pass and turns the second into a fault, after taking the
heading off the report.
-/

namespace Reckoner

/-- How a numeric computation fails: with a fault, or with the report of a routine. -/
inductive Raised (ε : Type) where
  | fault (fault : ε)
  | report (text : String)
deriving DecidableEq

/-- What follows the first colon and space of a text, if it has them. -/
def afterColon? : List Char → Option (List Char)
  | [] => none
  | ':' :: ' ' :: rest => some rest
  | _ :: rest => afterColon? rest

/-- The heading that a routine puts before its name. -/
def reportHeading : String := "Error in function "

/-- A report, up to its first NUL character, without the heading and the routine's name. -/
def reportText (report : String) : String :=
  let text := beforeNul report
  match List.isPrefixOf? reportHeading.toList text.toList with
  | none => text
  | some rest =>
    match afterColon? rest with
    | none => text
    | some body => String.ofList body

/-- Lets values and faults pass and turns reports into faults. -/
def guarded {ε α : Type} (fault : String → ε) : Except (Raised ε) α → Except ε α
  | .ok a => .ok a
  | .error (.fault e) => .error e
  | .error (.report text) => .error (fault (reportText text))

end Reckoner
