import Reckoner.Fault.Basic
import Reckoner.Fragment.Calls
import Reckoner.Fragment.Scan

/-!
# Lexed texts

A source becomes its fragments together with the texts of its calls, in the order of the call
fragments.
-/

namespace Reckoner

/-- The fragments of a source and the texts that its call fragments stand for. -/
structure Lexed where
  fragments : List Fragment
  calls : List String
deriving DecidableEq

namespace Lexed

/-- The greatest length of a source, in bytes. -/
def maxLength : Nat := 4096

/-- Cuts a source into fragments. -/
def ofSource (source : String) : Except Fault Lexed :=
  if maxLength < source.utf8ByteSize then .error (.compile (.inputTooLong maxLength))
  else if source.toList.contains Fragment.placeholder then
    .error (.compile (.notExpression source))
  else
    match Fragment.extract? source.toList with
    | none => .error (.compile (.missingBracket source source.utf8ByteSize))
    | some extracted =>
      let fragments := Fragment.scan extracted.text
      if fragments.isEmpty then .error (.compile (.notExpression source))
      else .ok ⟨fragments, extracted.calls⟩

end Lexed

end Reckoner
