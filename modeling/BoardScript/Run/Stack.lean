/-
Running code. A frame is a place in the code and a stack of values, and
one step reads an instruction there, does what it says and gives the next
frame or the value that the chunk ends with.

Each instruction finds its operands behind its opcode and its values on
the stack. Code that a compiler made always has both; any other code may
not, and is then an error at the place reached by reading.
-/
import BoardScript.Run.Call

namespace BoardScript

/-- A place in the code, and the values at hand, the topmost first. -/
structure Frame where
  ip : Nat
  stack : List Value

/-- What a step leads to. -/
inductive Progress where
  | next (frame : Frame)
  | done (value : Value)

namespace Frame

/-- Where every chunk begins. -/
def start : Frame := ⟨0, []⟩

/-- Takes the topmost value. -/
def pop : List Value → Eval (Value × List Value)
  | [] => codeFault .stackUnderflow
  | value :: rest => pure (value, rest)

/-- The topmost value, left where it is. -/
def peek (stack : List Value) : Eval Value := return (← pop stack).1

/-- Takes a number of values, the topmost of which comes last. -/
def popMany (count : Nat) (stack : List Value) : Eval (List Value × List Value) :=
  if count ≤ stack.length then pure ((stack.take count).reverse, stack.drop count)
  else codeFault .stackUnderflow

/-- Names and values that alternate, as pairs. -/
def pairs (ip : Nat) : List Value → Eval (List (String × Value))
  | .string name :: value :: rest => return (name, value) :: (← pairs ip rest)
  | _ :: _ :: _ => codeFault (.invalidOperand ip "a property name")
  | _ => return []

/-- What a call instruction takes from the stack: first the attributes, if
it has any. -/
def popAttributes (attributed : Bool) (ip : Nat) (stack : List Value) :
    Eval (Option Fields × List Value) := do
  if attributed then
    match ← pop stack with
    | (.object place, stack) => return (some ((← get).heap.object place), stack)
    | _ => codeFault (.invalidOperand ip "an attribute object")
  else return (none, stack)

/-- The name that a call gives to what it makes, if it has one. -/
def readNaming (chunk : Chunk) (named : Bool) (ip : Nat) : Eval (Nat × Option String) := do
  if named then
    let (ip, name) ← readCode (chunk.readName ip)
    return (ip, some name)
  else return (ip, none)

variable (env : Env) (chunk : Chunk) (span : Span)

/-- A call instruction: the callee lies below its arguments. -/
def performCall (named attributed : Bool) (ip : Nat) (stack : List Value) : Eval Progress := do
  let (ip, count) ← readCode (chunk.readU8 ip)
  let (ip, callee) ← readCode (chunk.readName ip)
  let (ip, naming) ← readNaming chunk named ip
  let (attributes, stack) ← popAttributes attributed ip stack
  let (args, stack) ← popMany count.toNat stack
  let (function, stack) ← pop stack
  let value ← callValue env.call function args attributes ⟨span, callee, naming, env.source⟩
  return .next ⟨ip, value :: stack⟩

/-- Does what an opcode says; `ip` is the place behind it. -/
def perform (ip : Nat) (stack : List Value) : OpCode → Eval Progress
  | .constant => do
      match ← readCode (chunk.readConstant ip) with
      | (ip, .number x) => return .next ⟨ip, .number x :: stack⟩
      | (ip, .string text) => return .next ⟨ip, .string text :: stack⟩
      | (ip, .function ..) => codeFault (.invalidOperand ip "a number or string constant")
  | .undefined => return .next ⟨ip, .undefined :: stack⟩
  | .true => return .next ⟨ip, .boolean true :: stack⟩
  | .false => return .next ⟨ip, .boolean false :: stack⟩
  | .pop => do
      let (_, stack) ← pop stack
      return .next ⟨ip, stack⟩
  | .getName => do
      let (ip, name) ← readCode (chunk.readName ip)
      return .next ⟨ip, (← readName name) :: stack⟩
  | .getCallee => do
      let (ip, name) ← readCode (chunk.readName ip)
      return .next ⟨ip, (← readCallee name span) :: stack⟩
  | .setLocal => do
      let (ip, name) ← readCode (chunk.readName ip)
      assignLocal name (← peek stack) span
      return .next ⟨ip, stack⟩
  | .getProperty => do
      let (ip, name) ← readCode (chunk.readName ip)
      let (object, stack) ← pop stack
      return .next ⟨ip, (← getProperty object name span) :: stack⟩
  | .setProperty => do
      let (ip, name) ← readCode (chunk.readName ip)
      let (value, stack) ← pop stack
      let (object, stack) ← pop stack
      setProperty object name value span
      return .next ⟨ip, value :: stack⟩
  | .getIndex => do
      let (index, stack) ← pop stack
      let (base, stack) ← pop stack
      return .next ⟨ip, (← getIndex base index) :: stack⟩
  | .setIndex => do
      let (value, stack) ← pop stack
      let (index, stack) ← pop stack
      let (base, stack) ← pop stack
      setIndex base index value span
      return .next ⟨ip, value :: stack⟩
  | .coordinate => do
      let (ip, axis) ← readCode (chunk.readAxis ip)
      let (target, stack) ← pop stack
      return .next ⟨ip, (← coordinateOf axis target span) :: stack⟩
  | .binary => do
      let (ip, operator) ← readCode (chunk.readOperator ip)
      let (right, stack) ← pop stack
      let (left, stack) ← pop stack
      return .next ⟨ip, (← binaryOperation operator left right span) :: stack⟩
  | .negate => do
      let (operand, stack) ← pop stack
      return .next ⟨ip, (← unaryOperation .negate operand span) :: stack⟩
  | .not => do
      let (operand, stack) ← pop stack
      return .next ⟨ip, (← unaryOperation .not operand span) :: stack⟩
  | .jump => do
      let (ip, distance) ← readCode (chunk.readU16 ip)
      return .next ⟨ip + distance, stack⟩
  | .jumpIfFalse => do
      let (ip, distance) ← readCode (chunk.readU16 ip)
      if (← peek stack).truthy then return .next ⟨ip, stack⟩
      else return .next ⟨ip + distance, stack⟩
  | .loop => do
      let (ip, distance) ← readCode (chunk.readU16 ip)
      if distance ≤ ip then return .next ⟨ip - distance, stack⟩
      else codeFault (.invalidOperand ip "a jump inside the chunk")
  | .array => do
      let (ip, count) ← readCode (chunk.readU8 ip)
      let (items, stack) ← popMany count.toNat stack
      return .next ⟨ip, (← allocate (·.newArray items.toArray)) :: stack⟩
  | .object => do
      let (ip, count) ← readCode (chunk.readU8 ip)
      let (values, stack) ← popMany (count.toNat * 2) stack
      let fields := Fields.ofPairs (← pairs ip values)
      return .next ⟨ip, (← allocate (·.newObject fields)) :: stack⟩
  | .closure => do
      match ← readCode (chunk.readConstant ip) with
      | (ip, .function literal body) =>
          return .next ⟨ip, (← makeClosure literal (some body) env.source) :: stack⟩
      | (ip, _) => codeFault (.invalidOperand ip "a function constant")
  | .call => performCall env chunk span false false ip stack
  | .callWithAttributes => performCall env chunk span false true ip stack
  | .callNamed => performCall env chunk span true false ip stack
  | .giveBack => do
      let (value, _) ← pop stack
      if (← get).scopes.isGlobal then fault .unexpectedReturn span
      else return .done value
  | .stop => return .done (stack.headD .undefined)
  | .useBoard => do
      let (ip, name) ← readCode (chunk.readName ip)
      useSession name span
      return .next ⟨ip, .undefined :: stack⟩
  | .delete => do
      let (target, stack) ← pop stack
      return .next ⟨ip, (← deleteValue target span) :: stack⟩

/-- One instruction. -/
def step (env : Env) (chunk : Chunk) (frame : Frame) : Eval Progress :=
  match chunk.spanAt frame.ip with
  | none => codeFault (.missingSpan frame.ip)
  | some span => do
      env.ask span
      let (ip, op) ← readCode (chunk.readOpCode frame.ip)
      perform env chunk span ip frame.stack op

/-- Steps until the chunk is done. -/
def exec (env : Env) (chunk : Chunk) : (fuel : Nat) → Frame → Eval Value
  | 0, _ => throw .exhausted
  | fuel + 1, frame => do
      match ← step env chunk frame with
      | .next frame => exec env chunk fuel frame
      | .done value => return value

end Frame

/-- Runs a chunk from its beginning. -/
def Chunk.run (chunk : Chunk) (env : Env) : Eval Value := Frame.exec env chunk env.fuel .start

end BoardScript
