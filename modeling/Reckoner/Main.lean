import Reckoner.Transcript

/-!
# The console

Reads lines from standard input and prints what a session answers.
-/

open Reckoner

/-- A line without a reply is never answered: its counter does not advance. -/
partial def unanswered (fault : Fault) : IO UInt32 := unanswered fault

/-- Asks for lines and answers them until the input ends or a line asks to leave; the result is the
exit code. -/
partial def converse (input output : IO.FS.Stream) (c : Context) : IO UInt32 := do
  output.putStr Transcript.prompt
  output.flush
  let line ← input.getLine
  if line.isEmpty then
    output.putStr Transcript.farewell
    return 0
  match Transcript.lines line with
  | [] => converse input output c
  | line :: _ =>
    match (Session.execute line).run c with
    | (.ok reply, c) =>
      if reply.exit then
        output.putStr Transcript.farewell
        return 0
      output.putStr (Transcript.outputText reply)
      converse input output c
    | (.error fault, _) => unanswered fault

/-- Greets and starts a conversation with a fresh context. -/
def main : IO UInt32 := do
  let output ← IO.getStdout
  output.putStr Transcript.banner
  let seed ← IO.rand 0 (Nat.pow 2 32)
  let chance (i : Nat) : Fin 10 :=
    ⟨(hash (seed, i)).toNat % 10, Nat.mod_lt _ (Nat.zero_lt_succ 9)⟩
  converse (← IO.getStdin) output (Context.fresh { Settings.standard with chance := chance })
