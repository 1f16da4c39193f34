/-
What evaluation makes. The creations of a run are those of the calls that it
evaluates, in order: a call whose callee comes to a creator makes an element,
if the creator does not fail, behind what its callee, its arguments and its
attributes make; a call whose callee comes to a closure makes what the body of
the closure makes; nothing else makes anything. This is told along the tree
(`Node.makes`), and along the plan of a node for its code (`Plan.makes`),
where each call carries the node that it was made of. On which machine a part
begins is not told again but left to the evaluation itself.
-/
import BoardScript.Proofs.Run.Calling
import BoardScript.Proofs.Run.Compiled
import BoardScript.Proofs.Run.Walk
import BoardScript.Run.Interpreter

namespace BoardScript

/-- Something that was made: the place of the element, and the call that
made it with the text that the call was read from. -/
structure Creation where
  element : Nat
  source : Source
  call : Node

/-- What an action makes, by the machine that it begins on. -/
abbrev Makings := Machine → List Creation

/-- How calls of closures make things. -/
abbrev CallMakings := Closure → List Value → CallSite → Makings

namespace Makings

variable {α : Type}

def nothing : Makings := fun _ => []

/-- What comes behind an action, if it ends with a value. -/
def sequel (action : Eval α) (next : α → Makings) : Makings := fun m =>
  match action m with
  | .ok a n => next a n
  | .error _ _ => []

/-- What an action makes, and then what comes behind it. -/
def andThen (first : Makings) (action : Eval α) (next : α → Makings) : Makings := fun m =>
  first m ++ sequel action next m

/-- What is made behind a question whether to go on. -/
def asked (env : Env) (span : Span) (next : Makings) : Makings := sequel (env.ask span) fun _ => next

/-- What is made where there is a function to give something back from. -/
def inFunction (made : Makings) : Makings := fun m =>
  (if m.scopes.isGlobal then nothing else made) m

/-- What the turns of a loop make. -/
def looped (condition : Eval Value) (conditionMakes : Makings) (turn : Eval Unit) (turnMakes : Makings) :
    (turns : Nat) → Makings
  | 0 => nothing
  | turns + 1 => conditionMakes.andThen condition fun v =>
      if v.truthy then
        turnMakes.andThen turn fun _ => looped condition conditionMakes turn turnMakes turns
      else nothing

theorem andThen_nothing (first : Makings) (action : Eval α) :
    first.andThen action (fun _ => nothing) = first := by
  funext m
  unfold andThen sequel
  cases action m <;> exact List.append_nil _

end Makings

open Makings

/-- The element that a creator made, for the call that it was called by. -/
def madeBy (source : Source) (call : Node) : EStateM.Result Unwind Machine Value → List Creation
  | .ok (.host (.element index)) _ => [⟨index, source, call⟩]
  | _ => []

/-- What calling a value makes, by the node of the call. -/
def callMakes (calls : CallMakings) (call : Node) (callee : Value) (args : List Value)
    (attributes : Option Fields) (site : CallSite) : Makings :=
  match callee, attributes with
  | .creator creator, _ => fun m => madeBy site.source call (invokeCreator creator args attributes site m)
  | .closure c, none => calls c args site
  | _, _ => nothing

-- =============================================================== from the tree

/-- What the call that a node is makes, given its parts with what they make.
A callee that is a name makes nothing. -/
def evalCallMakes (env : Env) (calls : CallMakings) (node callee : Node) (calleeValue : Eval Value)
    (calleeMakes : Makings) (args : Eval (List Value)) (argsMake : Makings)
    (attributes : Option (Eval Fields)) (attributesMake : Makings) (naming : Option String)
    (span : Span) : Makings :=
  (if callee.name?.isSome then nothing else calleeMakes).andThen (callee.resolved calleeValue) fun function =>
    argsMake.andThen args fun args =>
      attributesMake.andThen (givenFields attributes) fun fields =>
        callMakes calls node function args fields ⟨span, Compile.calleeText callee, naming, env.source⟩

mutual

/-- What evaluating a node makes. -/
def Node.makes (env : Env) (calls : CallMakings) (naming : Option String) : Node → Makings
  | .block statements span => asked env span (statementsMake env calls statements)
  | .assign name value span => asked env span (value.makes env calls (some name.text))
  | .assignProperty object _ value span =>
      asked env span ((object.makes env calls none).andThen (object.eval env none) fun _ =>
        value.makes env calls none)
  | .assignIndex base index value span =>
      asked env span ((base.makes env calls none).andThen (base.eval env none) fun _ =>
        (index.makes env calls none).andThen (index.eval env none) fun _ =>
          value.makes env calls none)
  | .ifThen condition yes span =>
      asked env span ((condition.makes env calls none).andThen (condition.eval env none) fun v =>
        if v.truthy then yes.makes env calls none else nothing)
  | .ifElse condition yes no span =>
      asked env span ((condition.makes env calls none).andThen (condition.eval env none) fun v =>
        if v.truthy then yes.makes env calls none else no.makes env calls none)
  | .conditional condition yes no span =>
      asked env span ((condition.makes env calls none).andThen (condition.eval env none) fun v =>
        if v.truthy then yes.makes env calls none else no.makes env calls none)
  | .whileLoop condition body span =>
      asked env span (looped (condition.eval env none) (condition.makes env calls none)
        (do let _ ← body.eval env none) (body.makes env calls none) env.fuel)
  | .doLoop body condition span =>
      asked env span ((body.makes env calls none).andThen (body.eval env none) fun _ =>
        looped (condition.eval env none) (condition.makes env calls none)
          (do let _ ← body.eval env none) (body.makes env calls none) env.fuel)
  | .forLoop init condition step body span =>
      asked env span ((init.makes env calls none).andThen (init.eval env none) fun _ =>
        looped (condition.eval env none) (condition.makes env calls none)
          (do let _ ← body.eval env none; let _ ← step.eval env none)
          ((body.makes env calls none).andThen (body.eval env none) fun _ =>
            step.makes env calls none) env.fuel)
  | .useBoard .. => nothing
  | .delete operand span => asked env span (operand.makes env calls none)
  | .returnNothing _ => nothing
  | .returnValue value span => asked env span (inFunction (value.makes env calls none))
  | .expression value span => asked env span (value.makes env calls none)
  | .function .. | .map .. => nothing
  | .call callee args span =>
      let made := evalCallMakes env calls (.call callee args span) callee (callee.eval env none)
        (callee.makes env calls none) (evalAll env args) (allMake env calls args) none nothing naming
        span
      if naming.isNone then asked env span made else made
  | .callWith callee args attributes span =>
      let made := evalCallMakes env calls (.callWith callee args attributes span) callee
        (callee.eval env none) (callee.makes env calls none) (evalAll env args)
        (allMake env calls args) (some (evalProperties env attributes))
        (pairsMake env calls attributes) naming span
      if naming.isNone then asked env span made else made
  | .array items span => asked env span (allMake env calls items)
  | .object properties span => asked env span (pairsMake env calls properties)
  | .index base index span =>
      asked env span ((base.makes env calls none).andThen (base.eval env none) fun _ =>
        index.makes env calls none)
  | .binary .and left right span =>
      asked env span ((left.makes env calls none).andThen (left.eval env none) fun v =>
        if v.truthy then right.makes env calls none else nothing)
  | .binary .or left right span =>
      asked env span ((left.makes env calls none).andThen (left.eval env none) fun v =>
        if v.truthy then nothing else right.makes env calls none)
  | .binary _ left right span =>
      asked env span ((left.makes env calls none).andThen (left.eval env none) fun _ =>
        right.makes env calls none)
  | .unary _ operand span => asked env span (operand.makes env calls none)
  | .identifier .. | .numeral .. | .string .. | .boolean .. => nothing
  | .coordinate _ operand span => asked env span (operand.makes env calls none)
  | .property object _ span => asked env span (object.makes env calls none)

/-- What statements make. -/
def statementsMake (env : Env) (calls : CallMakings) : List Node → Makings
  | [] => nothing
  | node :: rest => (node.makes env calls none).andThen (node.eval env none) fun _ =>
      statementsMake env calls rest

/-- What expressions make. -/
def allMake (env : Env) (calls : CallMakings) : List Node → Makings
  | [] => nothing
  | node :: rest => (node.makes env calls none).andThen (node.eval env none) fun _ =>
      allMake env calls rest

/-- What the values of properties make. -/
def pairsMake (env : Env) (calls : CallMakings) : List Property → Makings
  | [] => nothing
  | .mk _ value :: rest => (value.makes env calls none).andThen (value.eval env none) fun _ =>
      pairsMake env calls rest

end

/-- An operator that always needs both operands. -/
theorem makes_binary {operator : BinaryOperator} (hand : operator ≠ .and) (hor : operator ≠ .or)
    (env : Env) (calls : CallMakings) (naming : Option String) (left right : Node) (span : Span) :
    (Node.binary operator left right span).makes env calls naming =
      asked env span ((left.makes env calls none).andThen (left.eval env none) fun _ =>
        right.makes env calls none) := by
  rw [Node.makes]
  · exact hand
  · exact hor

-- =================================================================== from code

/-- What running a plan for so many instructions makes. -/
def Plan.makes {α : Type} (env : Env) (calls : CallMakings) : Plan α → Nat → Makings
  | .act span x _ next, fuel + 1 => asked env span (sequel x fun b => (next b).makes env calls fuel)
  | .call node function args attributes site next, fuel + 1 =>
      asked env site.span (sequel (attributesAt attributes) fun fields =>
        (callMakes calls node function args fields site).andThen
          (callValue env.call function args fields site) fun v => (next v).makes env calls fuel)
  | _, _ => nothing

-- ======================================================================= calls

/-- What the body of a closure makes. -/
def Closure.makes (env : Env) (calls : CallMakings) (c : Closure) : Makings :=
  match c.compiled with
  | some _ => (c.literal.plan c.source env.fuel).makes env calls env.fuel
  | none => c.literal.body.makes env calls none

/-- What calling a closure makes. -/
def callClosureMakes (fuel : Nat) : (levels : Nat) → CallMakings
  | 0, _, _, _ => nothing
  | levels + 1, c, args, _ => fun m =>
      if m.options.maxCallDepth ≤ m.callDepth then []
      else if m.scopes.contains c.scope then
        c.makes ⟨fuel, callClosure .standard fuel levels, checkCancelled, c.source⟩
          (callClosureMakes fuel levels) (m.enter c args)
      else []

-- ======================================================================== runs

namespace Machine

/-- What calls of closures make on this machine. -/
def callsMake (m : Machine) (turns : Nat) : CallMakings :=
  callClosureMakes turns (m.options.maxCallDepth + 1)

/-- What a program makes, as an action. -/
def actionMakes (m : Machine) (turns : Nat) (source : Source) (root : Node) : Makings :=
  let env := m.environment .standard turns source
  match m.options.mode with
  | .tree => root.makes env (m.callsMake turns) none
  | .compiled =>
      match compileScript source root with
      | .ok _ => (scriptPlan source turns root).makes env (m.callsMake turns) turns
      | .error _ => nothing

/-- What executing a program makes. -/
def executeMakes (m : Machine) (turns : Nat) (source : Source) (root : Node) : List Creation :=
  m.actionMakes turns source root m.enterRun

/-- What running a program makes, if it has no syntax errors. -/
def executeParsedMakes (m : Machine) (turns : Nat) (source : Source) : Except Failure Node → List Creation
  | .ok root => m.executeMakes turns source root
  | .error _ => []

/-- What running a program text makes. -/
def runMakes (m : Machine) (turns : Nat) (text : String) : List Creation :=
  let source := Source.ofText text
  m.executeParsedMakes turns source (parseProgram m.options.parsing source)

/-- What running a program makes and calling the function that it comes to. -/
def callResultMakes (m : Machine) (turns : Nat) (source : Source) : Except Failure Node → List Creation
  | .error _ => []
  | .ok root => m.executeMakes turns source root ++
      match m.executeWithin turns source root with
      | (.ok function, n) =>
          callMakes (n.callsMake turns) root function [] none ⟨root.span, "snippet", none, source⟩ n
      | (.error _, _) => []

/-- What evaluating an expression makes. -/
def snippetMakes (m : Machine) (turns : Nat) (expression : String) : List Creation :=
  let source := Source.ofText (snippetText expression)
  m.callResultMakes turns source (parseProgram m.options.parsing source)

end Machine

end BoardScript
