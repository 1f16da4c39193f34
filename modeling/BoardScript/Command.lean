/-
The command line: what its arguments ask for, and what a program file or
the lines of a prompt come to. All of it is a function of the arguments,
the file and the input; reading and writing them is left to `main`.

An option counts once, and anything left over is refused. The first
argument that does not look like an option names a program file; without
one, each line of input is a program of its own.
-/
import BoardScript.Program.Print
import BoardScript.Run.Interpreter

namespace BoardScript.Command

-- ============================================================== arguments

/-- What the arguments ask for. -/
structure Invocation where
  options : Options := {}
  form : Option CodeForm := none
  showTree : Bool := false
  file : Option String := none

/-- Why a text is no number of milliseconds. -/
inductive TimeoutError where
  | empty
  | invalidDigit
  | tooLarge
deriving Repr, DecidableEq

def TimeoutError.message : TimeoutError → String
  | .empty => "cannot parse integer from empty string"
  | .invalidDigit => "invalid digit found in string"
  | .tooLarge => "number too large to fit in target type"

/-- Why arguments are refused. -/
inductive UsageError where
  | unrecognized (args : List String)
  | timeout (cause : TimeoutError)
deriving Repr, DecidableEq

def usage : String :=
  "Usage: jessie-rs [--compiled] [--timeout=MS] [--emit=surface|bytecode] [--ast] [file]"

def UsageError.message : UsageError → String
  | .unrecognized args =>
      "Unrecognized arguments: [" ++ ", ".intercalate (args.map Quoted.quote) ++ "]"
  | .timeout cause => "Invalid --timeout: " ++ cause.message

/-- Reads digits behind a number; the first fault counts. -/
def readDigits : (number : Nat) → List Char → Except TimeoutError Nat
  | number, [] => .ok number
  | number, c :: rest =>
      if c.isDigit then
        let number := number * 10 + (c.toNat - '0'.toNat)
        if number < twoTo 64 then readDigits number rest else .error .tooLarge
      else .error .invalidDigit

/-- Reads a number of milliseconds, which fits into 64 bits and may have a
plus sign. -/
def readTimeout (text : List Char) : Except TimeoutError Nat :=
  match text with
  | [] => .error .empty
  | ['+'] => .error .invalidDigit
  | '+' :: digits => readDigits 0 digits
  | digits => readDigits 0 digits

/-- What stands behind a beginning, if a text has it. -/
def behind? : (beginning : List Char) → List Char → Option (List Char)
  | [], text => some text
  | c :: beginning, d :: text => if c = d then behind? beginning text else none
  | _ :: _, [] => none

/-- Takes the first argument that means something. -/
def takeFirst {α : Type} (meaning : String → Option α) : List String → Option α × List String
  | [] => (none, [])
  | arg :: rest =>
      match meaning arg with
      | some a => (some a, rest)
      | none => let (found, rest) := takeFirst meaning rest; (found, arg :: rest)

def flag (name : String) (arg : String) : Option Unit := if arg = name then some () else none

def timeoutOf (arg : String) : Option (Except TimeoutError Nat) :=
  (behind? "--timeout=".toList arg.toList).map readTimeout

def formOf (arg : String) : Option CodeForm :=
  match arg with
  | "--emit=surface" => some .surface
  | "--emit=bytecode" => some .bytecode
  | _ => none

def fileOf (arg : String) : Option String :=
  if (behind? "--".toList arg.toList).isSome then none else some arg

/-- Reads the arguments. What is left over is refused before a timeout
that cannot be read. -/
def readArguments (args : List String) : Except UsageError Invocation := do
  let (compiled, args) := takeFirst (flag "--compiled") args
  let (timeout, args) := takeFirst timeoutOf args
  let (form, args) := takeFirst formOf args
  let (tree, args) := takeFirst (flag "--ast") args
  let (file, args) := takeFirst fileOf args
  if !args.isEmpty then throw (.unrecognized args)
  let maxRuntime ← match timeout with
    | none => pure none
    | some (.ok limit) => pure (some limit)
    | some (.error cause) => throw (.timeout cause)
  return {
    options := { mode := if compiled.isSome then .compiled else .tree, maxRuntime }
    form
    showTree := tree.isSome
    file }

-- ================================================================ results

/-- What the program prints and how it ends. -/
structure Result where
  exit : Nat := 0
  output : String := ""
  diagnostics : String := ""
deriving Repr, DecidableEq

/-- A line for each message. -/
def report (messages : List String) : String := String.join (messages.map (· ++ "\n"))

/-- The messages of a failure, one for each syntax error. -/
def messages : Failure → List String
  | .malformed errors => errors.map SyntaxError.message
  | failure => [failure.message]

/-- Refused arguments. -/
def refuse (error : UsageError) : Result :=
  { exit := 64, diagnostics := report [error.message, usage] }

/-- A program file that cannot be read. -/
def unreadable (file : String) : Result :=
  { exit := 1, diagnostics := report ["Cannot read " ++ file] }

/-- Runs a program file, or shows its tree or its code. -/
def runFile (invocation : Invocation) (text : String) : Result :=
  let source := Source.ofText text
  match parseProgram invocation.options.parsing source with
  | .error failure => { exit := 65, diagnostics := report (messages failure) }
  | .ok root =>
      if invocation.showTree then { output := root.render ++ "\n" }
      else match invocation.form with
        | some form =>
            match root.writtenAs form source with
            | .ok written => { output := written }
            | .error cause => { exit := 65, diagnostics := report [cause.message] }
        | none =>
            let m := { Machine.withBoard "board" with options := invocation.options }
            let (result, m) := m.execute source root
            let warnings := m.warnings.toList.map Warning.message
            match result with
            | .ok _ => { output := m.output, diagnostics := report warnings }
            | .error failure =>
                { exit := 70, output := m.output,
                  diagnostics := report (warnings ++ messages failure) }

-- ================================================================= prompt

/-- The lines of an input, each without its end. -/
def linesOf (input : List Char) : List String := go [] input
where
  /-- `line` holds the line so far, backwards. -/
  go (line : List Char) : List Char → List String
    | [] => if line.isEmpty then [] else [String.ofList line.reverse]
    | '\n' :: rest =>
        let line := match line with
          | '\r' :: line => line
          | line => line
        String.ofList line.reverse :: go [] rest
    | c :: rest => go (c :: line) rest

/-- What a line of the prompt shows: the text of its value, its tree or
its code. -/
def answerLine (invocation : Invocation) (m : Machine) (line : String) :
    Except Failure String × Machine :=
  let source := Source.ofText (line ++ "\n")
  match parseProgram m.options.parsing source with
  | .error failure => (.error failure, m)
  | .ok root =>
      if invocation.showTree then (.ok root.render, m)
      else match invocation.form with
        | some form => ((root.writtenAs form source).mapError .compile, m)
        | none =>
            match m.execute source root with
            | (.ok value, m) => (.ok (m.heap.debug value), m)
            | (.error failure, m) => (.error failure, m)

/-- A machine for the prompt, where the last semicolon may be missing. -/
def promptMachine (options : Options) : Machine :=
  { Machine.withBoard "board" with options := { options with parsing := ⟨true⟩ } }

/-- What a line adds to the text written and to the diagnostics. -/
def promptLine (invocation : Invocation) (state : Machine × Result) (line : String) :
    Machine × Result :=
  let (m, result) := state
  let (answer, m) := answerLine invocation m line
  let (written, m) := m.takeOutput
  let (warnings, m) := m.takeWarnings
  let (shown, complaints) := match answer with
    | .ok text => ("==> " ++ text ++ "\n", [])
    | .error failure => ("", messages failure)
  (m, { result with
    output := result.output ++ written ++ shown
    diagnostics := result.diagnostics ++ report (warnings.map Warning.message ++ complaints) })

/-- Runs the lines of an input one after the other. -/
def runPrompt (invocation : Invocation) (input : String) : Result :=
  ((linesOf input.toList).foldl (promptLine invocation)
    (promptMachine invocation.options, {})).2

/-- The whole command. `contents` is the text of the file with a name, if
it can be read. -/
def run (args : List String) (contents : String → Option String) (input : String) : Result :=
  match readArguments args with
  | .error error => refuse error
  | .ok invocation =>
      match invocation.file with
      | none => runPrompt invocation input
      | some file =>
          match contents file with
          | some text => runFile invocation text
          | none => unreadable file

end BoardScript.Command
