/-
Running a program from its tree. Evaluation follows the tree; loops go
round at most as often as the environment allows, and closures are called
the way it says.

A call that is the whole right side of an assignment belongs to the
assignment and does not ask again whether the run was stopped.
-/
import BoardScript.Run.Call

namespace BoardScript

/-- Repeats a turn while a condition holds. -/
def loopWhile (condition : Eval Value) (turn : Eval Unit) : (fuel : Nat) → Eval Unit
  | 0 => throw .exhausted
  | fuel + 1 => do
      if (← condition).truthy then
        turn
        loopWhile condition turn fuel
      else pure ()

/-- A call, given how to evaluate its parts. A callee that is a name is
resolved as something to be called. Attributes are only handed on, and walking
the tree needs no object for them; one is placed all the same, which nothing
refers to, because compiled code collects them in an object and objects are to
have the same numbers in both modes. -/
def evalCall (env : Env) (callee : Node) (calleeValue : Eval Value) (args : Eval (List Value))
    (attributes : Option (Eval Fields)) (naming : Option String) (span : Span) : Eval Value := do
  let calleeValue ← match callee.name? with
    | some name => readCallee name callee.span
    | none => calleeValue
  let args ← args
  let attributes ← match attributes with
    | some attributes => do
        let fields ← attributes
        let _ ← allocate (·.newObject fields)
        pure (some fields)
    | none => pure none
  callValue env.call calleeValue args attributes
    ⟨span, Compile.calleeText callee, naming, env.source⟩

/-- A return, on its way to the function. -/
def giveBack (value : Eval Value) (span : Span) : Eval Value := do
  if (← get).scopes.isGlobal then fault .unexpectedReturn span
  else throw (.returned (← value))

mutual

/-- The value of a node. -/
def Node.eval (env : Env) (naming : Option String) : Node → Eval Value
  | .block statements span => do
      env.ask span
      evalStatements env statements
  | .assign name value span => do
      env.ask span
      let value ← value.eval env (some name.text)
      assignLocal name.text value name.span
      return value
  | .assignProperty object name value span => do
      env.ask span
      let object ← object.eval env none
      let value ← value.eval env none
      setProperty object name.text value name.span
      return value
  | .assignIndex base index value span => do
      env.ask span
      let base ← base.eval env none
      let index ← index.eval env none
      let result ← value.eval env none
      setIndex base index result value.span
      return result
  | .ifThen condition yes span => do
      env.ask span
      if (← condition.eval env none).truthy then yes.eval env none else return .undefined
  | .ifElse condition yes no span => do
      env.ask span
      if (← condition.eval env none).truthy then yes.eval env none else no.eval env none
  | .conditional condition yes no span => do
      env.ask span
      if (← condition.eval env none).truthy then yes.eval env none else no.eval env none
  | .whileLoop condition body span => do
      env.ask span
      loopWhile (condition.eval env none) (do let _ ← body.eval env none) env.fuel
      return .undefined
  | .doLoop body condition span => do
      env.ask span
      let _ ← body.eval env none
      loopWhile (condition.eval env none) (do let _ ← body.eval env none) env.fuel
      return .undefined
  | .forLoop init condition step body span => do
      env.ask span
      let _ ← init.eval env none
      loopWhile (condition.eval env none)
        (do let _ ← body.eval env none; let _ ← step.eval env none) env.fuel
      return .undefined
  | .useBoard name span => do
      env.ask span
      useSession name.text span
      return .undefined
  | .delete operand span => do
      env.ask span
      deleteValue (← operand.eval env none) span
  | .returnNothing span => do
      env.ask span
      giveBack (pure .undefined) span
  | .returnValue value span => do
      env.ask span
      giveBack (value.eval env none) span
  | .expression value span => do
      env.ask span
      value.eval env none
  | .function params body literal span => do
      env.ask span
      makeClosure ⟨false, params, body, literal⟩ none env.source
  | .map params body literal span => do
      env.ask span
      makeClosure ⟨true, params, body, literal⟩ none env.source
  | .call callee args span => do
      if naming.isNone then env.ask span
      evalCall env callee (callee.eval env none) (evalAll env args) none naming span
  | .callWith callee args attributes span => do
      if naming.isNone then env.ask span
      evalCall env callee (callee.eval env none) (evalAll env args)
        (some (evalProperties env attributes)) naming span
  | .array items span => do
      env.ask span
      let items ← evalAll env items
      allocate (·.newArray items.toArray)
  | .object properties span => do
      env.ask span
      let fields ← evalProperties env properties
      allocate (·.newObject fields)
  | .index base index span => do
      env.ask span
      let base ← base.eval env none
      getIndex base (← index.eval env none)
  | .binary .and left right span => do
      env.ask span
      let left ← left.eval env none
      if left.truthy then right.eval env none else return left
  | .binary .or left right span => do
      env.ask span
      let left ← left.eval env none
      if left.truthy then return left else right.eval env none
  | .binary operator left right span => do
      env.ask span
      let left ← left.eval env none
      binaryOperation operator left (← right.eval env none) span
  | .unary operator operand span => do
      env.ask span
      unaryOperation operator (← operand.eval env none) span
  | .identifier name span => do
      env.ask span
      readName name
  | .numeral text _ span => do
      env.ask span
      return .number (numeralValue text)
  | .string value span => do
      env.ask span
      return .string value
  | .boolean value span => do
      env.ask span
      return .boolean value
  | .coordinate axis operand span => do
      env.ask span
      coordinateOf axis (← operand.eval env none) span
  | .property object name span => do
      env.ask span
      getProperty (← object.eval env none) name.text name.span

/-- Statements one after the other; the value is that of the last. -/
def evalStatements (env : Env) : List Node → Eval Value
  | [] => return .undefined
  | [statement] => statement.eval env none
  | statement :: rest => do
      let _ ← statement.eval env none
      evalStatements env rest

/-- The values of expressions, in order. -/
def evalAll (env : Env) : List Node → Eval (List Value)
  | [] => return []
  | node :: rest => do
      let value ← node.eval env none
      return value :: (← evalAll env rest)

/-- The fields that properties make, the last of a name winning. -/
def evalProperties (env : Env) (properties : List Property) : Eval Fields :=
  return Fields.ofPairs (← evalPairs env properties)

/-- Names and values of properties, in order. -/
def evalPairs (env : Env) : List Property → Eval (List (String × Value))
  | [] => return []
  | .mk name value :: rest => do
      let value ← value.eval env none
      return (name.text, value) :: (← evalPairs env rest)

end

end BoardScript
