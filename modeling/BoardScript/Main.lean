/-
The program: reads the file or the lines it is given and writes what the
command says. Lines of a prompt are answered one by one as they come.
-/
import BoardScript.Command

namespace BoardScript.Main

open Command

/-- The contents of a file, if it can be read as text. -/
def readFile? (file : String) : IO (Option String) := do
  try
    return some (← IO.FS.readFile file)
  catch _ => return none

def write (result : Result) : IO Unit := do
  let output ← IO.getStdout
  let diagnostics ← IO.getStderr
  output.putStr result.output
  output.flush
  diagnostics.putStr result.diagnostics
  diagnostics.flush

/-- Answers lines until the input ends. -/
partial def prompt (invocation : Invocation) (input : IO.FS.Stream) (m : Machine) : IO Unit := do
  let text ← input.getLine
  match linesOf text.toList with
  | [] => pure ()
  | line :: _ =>
      let (m, result) := promptLine invocation (m, {}) line
      write result
      prompt invocation input m

end BoardScript.Main

open BoardScript Command in
def main (args : List String) : IO UInt32 := do
  match readArguments args with
  | .error error =>
      Main.write (refuse error)
      return (refuse error).exit.toUInt32
  | .ok invocation =>
      match invocation.file with
      | none =>
          Main.prompt invocation (← IO.getStdin) (promptMachine invocation.options)
          return 0
      | some file =>
          let result := match ← Main.readFile? file with
            | some text => runFile invocation text
            | none => unreadable file
          Main.write result
          return result.exit.toUInt32
