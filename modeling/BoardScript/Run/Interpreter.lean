/-
The interpreter as its users see it: a machine that programs are run on
one after the other, and that keeps what they leave behind. A program is
run only if it has no syntax errors.

What can run forever is cut off after a number of turns that no computer
gets to; a run that is cut off is neither a value nor an error.
-/
import BoardScript.Code.Listing
import BoardScript.Program.Surface
import BoardScript.Run.Activation

namespace BoardScript

/-- Why there is no result. -/
inductive Failure where
  | malformed (errors : List SyntaxError)
  | runtime (error : RuntimeError)
  | compile (cause : CompileError)
  | exhausted

namespace Failure

def message : Failure → String
  | malformed errors => s!"{errors.length} syntax error(s)"
  | runtime error => error.message
  | compile cause => cause.message
  | exhausted => "The program did not end."

/-- What stands at which place in a report. -/
def labels : Failure → List (String × Span)
  | malformed _ => []
  | runtime error => error.labels
  | compile cause => cause.labels
  | exhausted => []

end Failure

/-- The tree, if there are no syntax errors. -/
def Parsed.faultless : Parsed → Except Failure Node
  | ⟨some root, []⟩ => .ok root
  | ⟨_, errors⟩ => .error (.malformed errors)

/-- A program text without syntax errors, as its tree. -/
def parseProgram (options : ParseOptions) (source : Source) : Except Failure Node :=
  (parse options source).faultless

-- ================================================================ writing

/-- How a program is written out: in the language itself, every operation
in parentheses, or as a listing of its code. -/
inductive CodeForm where
  | surface
  | bytecode
deriving Repr, DecidableEq

/-- Writes a program out. -/
def Node.writtenAs (form : CodeForm) (source : Source) (root : Node) :
    Except CompileError String :=
  match form with
  | .surface => .ok (Surface.program root)
  | .bytecode => do
      match (← compileScript source root).listing .plain with
      | .ok listing => .ok listing
      | .error cause => .error (.malformed cause)

/-- Parses a program text and writes the program out. -/
def emit (form : CodeForm) (options : ParseOptions) (text : String) :
    Except Failure String := do
  let source := Source.ofText text
  match (← parseProgram options source).writtenAs form source with
  | .ok written => .ok written
  | .error cause => .error (.compile cause)

namespace Machine

-- ============================================================= setting up

/-- A machine that knows the standard builtins and no host. -/
def withBuiltins : Machine := { builtins := Builtin.standard }

/-- Adds a builtin, in place of any of its name. -/
def register (m : Machine) (builtin : Builtin) : Machine :=
  { m with builtins := builtin :: m.builtins.filter (·.name != builtin.name) }

/-- Puts a machine in front of another host. What programs left behind
stays, the known creators do not. -/
def connect (m : Machine) (host : Host) (heap : Heap) : Machine :=
  { m with host, heap, creators := m.creators.clear }

/-- A machine in front of one new board. -/
def withBoard (name : String) : Machine :=
  let (board, heap) := ({} : Heap).newBoard name
  withBuiltins.connect ⟨[board]⟩ heap

/-- Takes the warnings given so far. -/
def takeWarnings (m : Machine) : List Warning × Machine :=
  (m.warnings.toList, { m with warnings := #[] })

/-- Takes the text written so far. -/
def takeOutput (m : Machine) : String × Machine := (m.output, { m with output := "" })

/-- The last object made by a call that covers a line. -/
def objectAtLine (m : Machine) (line : Nat) : Option HostRef :=
  (m.created.toList.reverse.find? fun created =>
    created.firstLine ≤ line && line ≤ created.lastLine).map Created.object

-- ================================================================= running

/-- What evaluation on this machine depends on, if loops may go round
`turns` times. -/
def environment (m : Machine) (hooks : Hooks) (turns : Nat) (source : Source) : Env :=
  ⟨turns, callClosure hooks turns (m.options.maxCallDepth + 1), hooks.ask, source⟩

/-- Begins a run. The outermost one starts the clock. -/
def enterRun (m : Machine) : Machine :=
  if m.running = 0 then
    { m with
      cancelled := false
      ticks := m.options.maxRuntime.map (· * ticksPerMillisecond)
      running := 1 }
  else { m with running := m.running + 1 }

/-- Ends a run and leaves the scopes above a depth. The outermost run
stops the clock. -/
def leaveRun (depth : Nat) (m : Machine) : Machine :=
  { m with
    running := m.running - 1
    ticks := if m.running ≤ 1 then none else m.ticks
    scopes := m.scopes.unwindTo depth }

/-- The program as an action: evaluated, or compiled and run. -/
def action (m : Machine) (hooks : Hooks) (turns : Nat) (source : Source) (root : Node) :
    Eval Value :=
  let env := m.environment hooks turns source
  match m.options.mode with
  | .tree => root.eval env none
  | .compiled =>
      match compileScript source root with
      | .ok chunk => chunk.run env
      | .error cause => throw (.failed (.ofCompile cause))

/-- What an action on a machine comes to. -/
def outcome (action : Eval Value) (m : Machine) : Except Failure Value × Machine :=
  match action m with
  | .ok value m => (.ok value, m)
  | .error (.returned value) m => (.ok value, m)
  | .error (.failed error) m => (.error (.runtime error), m)
  | .error .exhausted m => (.error .exhausted, m)

/-- Runs a program or a part of one with given hooks, if it takes loops no
more than `turns` times round. -/
def executeHooked (m : Machine) (hooks : Hooks) (turns : Nat) (source : Source)
    (root : Node) : Except Failure Value × Machine :=
  let action := m.action hooks turns source root
  let depth := m.scopes.depth
  outcome (always action (leaveRun depth)) m.enterRun

/-- Runs a program or a part of one, if it takes loops no more than
`turns` times round. -/
def executeWithin (m : Machine) (turns : Nat) (source : Source) (root : Node) :
    Except Failure Value × Machine :=
  m.executeHooked .standard turns source root

/-- How often a loop may go round, which is longer than anyone waits. -/
def manyTurns : Nat := twoTo 60

/-- Runs a program or a part of one. -/
def execute (m : Machine) (source : Source) (root : Node) : Except Failure Value × Machine :=
  m.executeWithin manyTurns source root

/-- Runs a program, if it has no syntax errors. -/
def executeParsed (m : Machine) (turns : Nat) (source : Source) :
    Except Failure Node → Except Failure Value × Machine
  | .ok root => m.executeWithin turns source root
  | .error failure => (.error failure, m)

/-- Parses and runs a program text, if it takes loops no more than `turns`
times round. -/
def runWithin (m : Machine) (turns : Nat) (text : String) : Except Failure Value × Machine :=
  let source := Source.ofText text
  m.executeParsed turns source (parseProgram m.options.parsing source)

/-- Parses and runs a program text. -/
def run (m : Machine) (text : String) : Except Failure Value × Machine :=
  m.runWithin manyTurns text

/-- The text of a function that returns an expression. -/
def snippetText (expression : String) : String :=
  "function () \x7b return " ++ expression ++ "; \x7d;"

/-- Runs a program and calls the function that it comes to, if it has no
syntax errors. -/
def callResult (m : Machine) (hooks : Hooks) (turns : Nat) (source : Source) :
    Except Failure Node → Except Failure Value × Machine
  | .error failure => (.error failure, m)
  | .ok root =>
      match m.executeHooked hooks turns source root with
      | (.error failure, m) => (.error failure, m)
      | (.ok function, m) =>
          let site := ⟨root.span, "snippet", none, source⟩
          outcome (callValue (m.environment hooks turns source).call function [] none site) m

/-- Evaluates an expression in a function without parameters, with given
hooks. -/
def snippetHooked (m : Machine) (hooks : Hooks) (turns : Nat) (expression : String) :
    Except Failure Value × Machine :=
  let source := Source.ofText (snippetText expression)
  m.callResult hooks turns source (parseProgram m.options.parsing source)

/-- Evaluates an expression in a function without parameters, if that
takes loops no more than `turns` times round. -/
def snippetWithin (m : Machine) (turns : Nat) (expression : String) :
    Except Failure Value × Machine :=
  m.snippetHooked .standard turns expression

/-- Evaluates an expression in a function without parameters. -/
def snippet (m : Machine) (expression : String) : Except Failure Value × Machine :=
  m.snippetWithin manyTurns expression

end Machine

end BoardScript
