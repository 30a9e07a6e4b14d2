import Reckoner.Session.Basic

/-!
# Transcripts

The console greets, asks for a line, runs it and prints the output if there is any, until the input
ends or a line asks to leave.  A transcript is all that is printed for a given input.
-/

namespace Reckoner.Transcript

def banner : String := "memocalc (type 'help' for usage, 'exit' to leave)\n"

def prompt : String := "memocalc> "

def farewell : String := "Goodbye.\n"

/-- The lines of a text; a newline ends a line and need not end the last one.  `current` is the line
being read, last character first. -/
def linesFrom : List Char → List Char → List (List Char)
  | current, [] => if current.isEmpty then [] else [current.reverse]
  | current, c :: cs =>
    if c == '\n' then current.reverse :: linesFrom [] cs else linesFrom (c :: current) cs

def lines (text : String) : List String := (linesFrom [] text.toList).map String.ofList

/-- What is printed after a line. -/
def outputText (reply : Reply) : String :=
  if reply.output.isEmpty then "" else reply.output ++ "\n"

/-- What is printed for lines, from the first prompt through the farewell.  There is no farewell
after a line that has no reply. -/
def ofLines (c : Context) : List String → String
  | [] => prompt ++ farewell
  | line :: rest =>
    match (Session.execute line).run c with
    | (.ok reply, c) =>
      if reply.exit then prompt ++ farewell
      else prompt ++ outputText reply ++ ofLines c rest
    | (.error _, _) => prompt

/-- What is printed for an input. -/
def ofInput (s : Settings) (input : String) : String :=
  banner ++ ofLines (Context.fresh s) (lines input)

end Reckoner.Transcript
