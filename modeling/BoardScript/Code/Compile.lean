/-
From trees to code. Every node becomes code that leaves exactly one value
on the stack. Code is put together from the code of the parts, so a jump
knows how far it has to go once the code it jumps over is there; the table
of constants is threaded through in the order in which the text is read.

At script level a return fails whatever its value, so the value is not
compiled there.
-/
import BoardScript.Code.Listing
import BoardScript.Decimal.Nearest
import BoardScript.Program.Analysis
import BoardScript.Program.Surface

namespace BoardScript

/-- Why a program cannot be compiled. -/
inductive CompileError where
  | notFormula (span : Span)
  | tooManyConstants (span : Span)
  | tooManyOperands (what : String) (span : Span)
  | jumpTooLong (span : Span)
  | malformed (cause : CodeError)
deriving Repr, DecidableEq

namespace CompileError

def message : CompileError → String
  | notFormula _ => "In a map only function calls and mathematical expressions are allowed."
  | tooManyConstants _ => "Too many constants in one function"
  | tooManyOperands what _ => s!"Too many {what} (at most 255)"
  | jumpTooLong _ => "Jump too long"
  | malformed cause => s!"Malformed bytecode: {cause.message}"

/-- What stands at which place in a report. -/
def labels : CompileError → List (String × Span)
  | notFormula span => [("not allowed in a map", span)]
  | tooManyConstants span => [("while compiling this", span)]
  | tooManyOperands _ span => [("here", span)]
  | jumpTooLong span => [("in this construct", span)]
  | malformed _ => []

end CompileError

/-- The value of a numeral. -/
def numeralValue (text : String) : Float := (Decimal.read? text).getD (0.0 / 0.0)

namespace Compile

/-- Code on its way into a chunk: bytes, an opcode with its span. -/
abbrev Code := List (UInt8 × Option Span)

/-- Code made while the table of constants grows. -/
abbrev Assembly := StateT (List Constant) (Except CompileError)

def op (code : OpCode) (span : Span) : Code := [(code.byte, some span)]

def operand (byte : UInt8) : Code := [(byte, none)]

/-- A place for a constant. -/
def constant (value : Constant) (span : Span) : Assembly UInt8 := fun constants =>
  match registerConstant constants value with
  | some (constants, address) => .ok (address.byte, constants)
  | none => .error (.tooManyConstants span)

/-- An instruction with a constant as its operand. -/
def withConstant (code : OpCode) (value : Constant) (span : Span) : Assembly Code := do
  let address ← constant value span
  return op code span ++ operand address

def withName (code : OpCode) (name : String) (span : Span) : Assembly Code :=
  withConstant code (.string name) span

/-- A number that has to fit an operand byte. -/
def count (what : String) (n : Nat) (span : Span) : Assembly UInt8 :=
  if n < 256 then pure n.toUInt8 else throw (.tooManyOperands what span)

/-- A jump over `distance` bytes, in whichever direction its opcode goes. -/
def jump (code : OpCode) (distance : Nat) (span : Span) : Assembly Code :=
  if distance < 65536 then
    pure (op code span ++ operand (distance / 256).toUInt8 ++ operand (distance % 256).toUInt8)
  else throw (.jumpTooLong span)

/-- How many bytes a jump has. -/
def jumpWidth : Nat := 3

/-- What comes behind the condition of a loop: a way out, the turn, and
the way back over the condition too. -/
def loopTail (condition turn : Nat) (body : Code) (span : Span) : Assembly Code := do
  let back ← jump .loop (condition + jumpWidth + 1 + turn + jumpWidth) span
  let exit ← jump .jumpIfFalse (1 + turn + jumpWidth) span
  return exit ++ op .pop span ++ body ++ back ++ op .pop span ++ op .undefined span

/-- A choice by the condition on the stack. -/
def choice (yes : Assembly Code) (no : Assembly Code) (span : Span) : Assembly Code := do
  let yes ← yes
  let skipYes ← jump .jumpIfFalse (1 + yes.length + jumpWidth) span
  let no ← no
  let skipNo ← jump .jump (1 + no.length) span
  return skipYes ++ op .pop span ++ yes ++ skipNo ++ op .pop span ++ no

/-- Where a program is compiled: its text, and whether inside a function. -/
structure Place where
  source : Source
  inFunction : Bool

/-- A chunk from its code and constants. -/
def chunk (name : String) (source : Source) (code : Code) (constants : List Constant) : Chunk :=
  ⟨name, source, (code.map (·.1)).toArray, (code.map (·.2)).toArray, constants⟩

/-- The name of a function's chunk tells the line of its literal. -/
def functionName (source : Source) (isMap : Bool) (literal : Span) : String :=
  (if isMap then "map@" else "function@") ++ toString (source.lineOf literal.start)

/-- The chunk of a function, given the code of its body. A map gives back
its value; a function without a return gives back nothing. -/
def functionChunk (source : Source) (literal : FunctionLiteral) (body : Assembly Code) :
    Except CompileError Chunk := do
  if literal.isMap then
    if let some node := literal.body.notFormula then throw (.notFormula node.span)
  let (code, constants) ← body.run []
  let span := literal.body.span
  let code := if literal.isMap then code else code ++ op .pop span ++ op .undefined span
  return chunk (functionName source literal.isMap literal.span) source
    (code ++ op .giveBack span) constants

/-- The instruction that makes a closure. -/
def closure (place : Place) (literal : FunctionLiteral) (body : Assembly Code) (span : Span) :
    Assembly Code := do
  let chunk ← functionChunk place.source literal body
  withConstant .closure (.function literal chunk) span

/-- How a call's callee is named in messages. -/
def calleeText (callee : Node) : String := callee.name?.getD (Surface.node callee)

/-- A call. The callee is resolved first, then come the arguments, then the
attributes. -/
def call (callee : Node) (calleeCode args : Assembly Code) (argCount : Nat)
    (attributes : Option (Assembly Code)) (naming : Option String) (span : Span) :
    Assembly Code := do
  let calleeCode ← match callee.name? with
    | some name => withName .getCallee name callee.span
    | none => calleeCode
  let argc ← count "arguments" argCount span
  let args ← args
  let text ← constant (.string (calleeText callee)) span
  match attributes, naming with
  | some attributes, _ =>
      let attributes ← attributes
      return calleeCode ++ args ++ attributes ++ op .callWithAttributes span ++ operand argc ++
        operand text
  | none, some name =>
      let name ← constant (.string name) span
      return calleeCode ++ args ++ op .callNamed span ++ operand argc ++ operand text ++ operand name
  | none, none => return calleeCode ++ args ++ op .call span ++ operand argc ++ operand text

/-- An object from its properties. -/
def object (properties : Assembly Code) (propertyCount : Nat) (span : Span) : Assembly Code := do
  let size ← count "object properties" propertyCount span
  let properties ← properties
  return properties ++ op .object span ++ operand size

end Compile

open Compile

mutual

/-- The code of a node. A call that is the whole right side of an
assignment is told the name that its result will have. -/
def Node.compile (place : Place) (naming : Option String) : Node → Assembly Code
  | .block statements span =>
      if statements.isEmpty then pure (op .undefined span) else compileStatements place statements
  | .assign name value _ => do
      let value ← value.compile place (some name.text)
      return value ++ (← withName .setLocal name.text name.span)
  | .assignProperty object name value _ => do
      let object ← object.compile place none
      let value ← value.compile place none
      return object ++ value ++ (← withName .setProperty name.text name.span)
  | .assignIndex base index value _ => do
      let base ← base.compile place none
      let index ← index.compile place none
      let code ← value.compile place none
      return base ++ index ++ code ++ op .setIndex value.span
  | .ifThen condition yes span => do
      let condition ← condition.compile place none
      return condition ++ (← choice (yes.compile place none) (pure (op .undefined span)) span)
  | .ifElse condition yes no span => do
      let condition ← condition.compile place none
      return condition ++ (← choice (yes.compile place none) (no.compile place none) span)
  | .conditional condition yes no span => do
      let condition ← condition.compile place none
      return condition ++ (← choice (yes.compile place none) (no.compile place none) span)
  | .whileLoop condition body span => do
      let condition ← condition.compile place none
      let body ← body.compile place none
      let turn := body ++ op .pop span
      return condition ++ (← loopTail condition.length turn.length turn span)
  | .doLoop body condition span => do
      let body ← body.compile place none
      let condition ← condition.compile place none
      let start := body ++ op .pop span ++ condition
      return start ++ (← loopTail start.length 0 [] span)
  | .forLoop init condition step body span => do
      let init ← init.compile place none
      let condition ← condition.compile place none
      let body ← body.compile place none
      let step ← step.compile place none
      let turn := body ++ op .pop span ++ step ++ op .pop span
      return init ++ op .pop span ++ condition ++
        (← loopTail condition.length turn.length turn span)
  | .useBoard name span => withName .useBoard name.text span
  | .delete operand span => do
      return (← operand.compile place none) ++ op .delete span
  | .returnNothing span => pure (op .undefined span ++ op .giveBack span)
  | .returnValue value span => do
      let value ← if place.inFunction then value.compile place none else pure (op .undefined span)
      return value ++ op .giveBack span
  | .expression value _ => value.compile place none
  | .function params body literal span =>
      closure place ⟨false, params, body, literal⟩ (body.compile ⟨place.source, true⟩ none) span
  | .map params body literal span =>
      closure place ⟨true, params, body, literal⟩ (body.compile ⟨place.source, true⟩ none) span
  | .call callee args span =>
      call callee (callee.compile place none) (compileAll place args) args.length none naming span
  | .callWith callee args attributes span =>
      call callee (callee.compile place none) (compileAll place args) args.length
        (some (object (compileProperties place attributes) attributes.length span)) naming span
  | .array items span => do
      let size ← count "array elements" items.length span
      let items ← compileAll place items
      return items ++ op .array span ++ operand size
  | .object properties span =>
      object (compileProperties place properties) properties.length span
  | .index base index span => do
      let base ← base.compile place none
      let index ← index.compile place none
      return base ++ index ++ op .getIndex span
  | .binary .and left right span => do
      let left ← left.compile place none
      let right ← right.compile place none
      return left ++ (← jump .jumpIfFalse (1 + right.length) span) ++ op .pop span ++ right
  | .binary .or left right span => do
      let left ← left.compile place none
      let skip ← jump .jumpIfFalse jumpWidth span
      let right ← right.compile place none
      return left ++ skip ++ (← jump .jump (1 + right.length) span) ++ op .pop span ++ right
  | .binary operator left right span => do
      let left ← left.compile place none
      let right ← right.compile place none
      return left ++ right ++ op .binary span ++ operand operator.byte
  | .unary operator operand span => do
      let code := match operator with
        | .negate => OpCode.negate
        | .not => OpCode.not
      return (← operand.compile place none) ++ op code span
  | .identifier name span => withName .getName name span
  | .numeral text _ span => withConstant .constant (.number (numeralValue text)) span
  | .string value span => withConstant .constant (.string value) span
  | .boolean value span => pure (op (if value then .true else .false) span)
  | .coordinate axis target span => do
      return (← target.compile place none) ++ op .coordinate span ++ operand axis.byte
  | .property object name _ => do
      return (← object.compile place none) ++ (← withName .getProperty name.text name.span)

/-- Statements, of which only the last leaves its value. -/
def compileStatements (place : Place) : List Node → Assembly Code
  | [] => pure []
  | [statement] => statement.compile place none
  | statement :: next :: rest => do
      let code ← statement.compile place none
      return code ++ op .pop next.span ++ (← compileStatements place (next :: rest))

/-- Expressions, each of which leaves its value. -/
def compileAll (place : Place) : List Node → Assembly Code
  | [] => pure []
  | node :: rest => do
      let code ← node.compile place none
      return code ++ (← compileAll place rest)

/-- Properties: a key and a value each. -/
def compileProperties (place : Place) : List Property → Assembly Code
  | [] => pure []
  | .mk name value :: rest => do
      let key ← withName .constant name.text name.span
      let value ← value.compile place none
      return key ++ value ++ (← compileProperties place rest)

end

/-- The chunk of a whole script. -/
def compileScript (source : Source) (root : Node) : Except CompileError Chunk := do
  let (code, constants) ← (root.compile ⟨source, false⟩ none).run []
  return Compile.chunk "<script>" source (code ++ op .stop root.span) constants

end BoardScript
