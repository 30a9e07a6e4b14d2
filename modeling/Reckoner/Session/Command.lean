import Reckoner.Lexed
import Reckoner.Session.Definition
import Reckoner.Text

/-!
# Commands

A line is a command.  The words `exit`, `del` and `precision` are known by the words of the line;
`reset`, `help` and `env`, definitions and expressions by the line without its blanks.
-/

namespace Reckoner

/-- What a line asks for. -/
inductive Command where
  | nothing
  | exit
  | delete (name : String)
  | deleteUsage
  | showPrecision
  | setPrecision (argument : String)
  | precisionUsage
  | tooLong
  | reset
  | help
  | environment
  | define (definition : Definition)
  | evaluate (source : String)
deriving DecidableEq

namespace Command

/-- The command of a line without its blanks. -/
def ofStripped (cs : List Char) : Command :=
  let text := String.ofList cs
  if Lexed.maxLength < text.utf8ByteSize then .tooLong
  else if text = "reset" then .reset
  else if text = "help" then .help
  else if text = "env" then .environment
  else
    match Definition.ofChars? cs with
    | some definition => .define definition
    | none => .evaluate text

def ofLine (line : String) : Command :=
  match (Text.words line.toList).map String.ofList with
  | [] => .nothing
  | ["exit"] => .exit
  | "del" :: rest =>
    match rest with
    | [name] => .delete name
    | _ => .deleteUsage
  | "precision" :: rest =>
    match rest with
    | [] => .showPrecision
    | [argument] => .setPrecision argument
    | _ => .precisionUsage
  | _ => ofStripped (Text.strip line.toList)

end Command

end Reckoner
