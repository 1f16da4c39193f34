/-
The state of an interpreter, and the actions that evaluation is made of.
An action works on the machine and ends with a value or unwinds: with an
error, with a return on its way to its function, or because a loop went on
for longer than its bound.

Before every node and every instruction a run asks whether it has been
stopped. A limit on running time is counted in such questions.
-/
import BoardScript.Host.Board
import BoardScript.Program.Parse
import BoardScript.Run.Error
import BoardScript.Run.Scope
import BoardScript.Value.Operators

namespace BoardScript

/-- How programs are run: from the tree, or compiled. -/
inductive Mode where
  | tree
  | compiled
deriving Repr, DecidableEq, Inhabited

/-- The options of an interpreter. Running time is in milliseconds. -/
structure Options where
  mode : Mode := .tree
  maxRuntime : Option Nat := none
  warnOnShadowing : Bool := true
  maxCallDepth : Nat := 100
  parsing : ParseOptions := {}
deriving Repr, DecidableEq

instance : Inhabited Options := ⟨{}⟩

/-- A host object made by a program, with the first and last line of the
call that made it. -/
structure Created where
  object : HostRef
  firstLine : Nat
  lastLine : Nat
deriving Repr, DecidableEq, Inhabited

/-- The state of an interpreter. -/
structure Machine where
  heap : Heap := {}
  scopes : Scopes := .start
  host : Host := {}
  creators : CreatorCache := {}
  session : Nat := 0
  builtins : List Builtin := []
  options : Options := {}
  warnings : Array Warning := #[]
  created : Array Created := #[]
  /-- whether the run has been asked to stop -/
  cancelled : Bool := false
  /-- how many more questions the running time allows -/
  ticks : Option Nat := none
  /-- how many runs are under way -/
  running : Nat := 0
  /-- how many closure calls are under way -/
  callDepth : Nat := 0
  /-- the text written so far -/
  output : String := ""
  /-- whether writing fails -/
  outputBroken : Bool := false
  nextClosure : Nat := 0

instance : Inhabited Machine := ⟨{}⟩

/-- How an action ends without a value. -/
inductive Unwind where
  | returned (value : Value)
  | failed (error : RuntimeError)
  | exhausted

/-- An action on the machine. Whatever it did stays done when it unwinds. -/
abbrev Eval := EStateM Unwind Machine

/-- Fails at a place. -/
def fault {α : Type} (f : Fault) (span : Span) : Eval α := throw (.failed (.fault f span))

/-- Fails for code that cannot be read. -/
def codeFault {α : Type} (cause : CodeError) : Eval α :=
  throw (.failed (.compile (.malformed cause)))

/-- Reads code. -/
def readCode {α : Type} : Except CodeError α → Eval α
  | .ok a => pure a
  | .error cause => codeFault cause

/-- Runs an action and puts things right behind it, however it ends. -/
def always {α : Type} (action : Eval α) (restore : Machine → Machine) : Eval α := fun m =>
  match action m with
  | .ok a m => .ok a (restore m)
  | .error e m => .error e (restore m)

/-- How many questions a millisecond allows. -/
def ticksPerMillisecond : Nat := 5000

/-- Stops a run that has been asked to stop or has used up its time. -/
def checkCancelled (span : Span) : Eval Unit := fun m =>
  match m.ticks with
  | none => if m.cancelled then .error (.failed (.fault .cancelled span)) m else .ok () m
  | some 0 => .error (.failed (.fault .cancelled span)) { m with cancelled := true }
  | some (left + 1) =>
      if m.cancelled then .error (.failed (.fault .cancelled span)) m
      else .ok () { m with ticks := some left }

def warn (warning : Warning) : Eval Unit :=
  modify fun m => { m with warnings := m.warnings.push warning }

/-- Writes a line of output. -/
def writeLine (line : String) (span : Span) : Eval Unit := fun m =>
  if m.outputBroken then .error (.failed (.fault .output span)) m
  else .ok () { m with output := m.output ++ line ++ "\n" }

def textOf (v : Value) : Eval String := return (← get).heap.text v

/-- Puts something new on the heap. -/
def allocate (make : Heap → Value × Heap) : Eval Value := fun m =>
  let (value, heap) := make m.heap
  .ok value { m with heap }

/-- Changes the heap. -/
def updateHeap (change : Heap → Heap) : Eval Unit :=
  modify fun m => { m with heap := change m.heap }

/-- A change of the heap that a host may refuse. -/
def changeHeap (change : Heap → Except HostError Heap) (refusal : HostError → Fault)
    (span : Span) : Eval Unit := fun m =>
  match change m.heap with
  | .ok heap => .ok () { m with heap }
  | .error cause => .error (.failed (.fault (refusal cause) span)) m

/-- The same with a value as its result. -/
def askHost (ask : Heap → Except HostError (Value × Heap)) (refusal : HostError → Fault)
    (span : Span) : Eval Value := fun m =>
  match ask m.heap with
  | .ok (value, heap) => .ok value { m with heap }
  | .error cause => .error (.failed (.fault (refusal cause) span)) m

-- ============================================================== operators

def binaryOperation (operator : BinaryOperator) (left right : Value) (span : Span) :
    Eval Value := fun m =>
  match (Operators.binary operator left right).run m.heap with
  | .ok (value, heap) => .ok value { m with heap }
  | .error ⟨l, r⟩ => .error (.failed (.fault (.operandTypes operator.text l r) span)) m

def unaryOperation (operator : UnaryOperator) (operand : Value) (span : Span) :
    Eval Value := fun m =>
  match (Operators.unary operator operand).run m.heap with
  | .ok (value, heap) => .ok value { m with heap }
  | .error type => .error (.failed (.fault (.operandType operator.text type) span)) m

-- ============================================================= properties

/-- Reads a property. On a host object sub-objects come first, then
methods, then attributes, whose names are in lower case. -/
def getProperty (owner : Value) (name : String) (span : Span) : Eval Value := do
  let heap := (← get).heap
  match owner with
  | .host ref =>
      match heap.subObject ref name with
      | some value => return value
      | none =>
          match heap.methodAlias ref name with
          | some method => return .method ref method
          | none =>
              match heap.attribute? ref (lowercase name) with
              | some value => return value
              | none => fault (.unknownProperty name) span
  | .object place => return ((heap.object place).get? name).getD .undefined
  | .array place =>
      if name = "length" then return .number (heap.array place).size.toFloat
      else fault (.unknownProperty name) span
  | .string text =>
      if name = "length" then return .number text.length.toFloat
      else fault (.unknownProperty name) span
  | other => fault (.propertyOfNonObject name other.type) span

/-- Writes a property. -/
def setProperty (owner : Value) (name : String) (value : Value) (span : Span) : Eval Unit := do
  match owner with
  | .host ref =>
      let name := lowercase name
      if Heap.isReadOnly ref name then fault (.readOnlyProperty name) span
      else changeHeap (fun heap => heap.setProperty ref name value) .host span
  | .object place => updateHeap (·.setField place name value)
  | .array _ | .string _ =>
      if name = "length" then fault (.readOnlyProperty name) span
      else fault (.invalidTarget s!"property {name}" owner.type) span
  | other => fault (.propertyOfNonObject name other.type) span

/-- Reads by place or, in an object, by the text of the index. What cannot
be read is undefined. -/
def getIndex (base index : Value) : Eval Value := do
  let heap := (← get).heap
  let found := match base with
    | .array place => (Operators.place? index).bind fun i => (heap.array place)[i]?
    | .string text =>
        (Operators.place? index).bind fun i => (text.toList[i]?).map fun c => .string (String.singleton c)
    | .host ref => (Operators.place? index).bind (heap.itemOf ref)
    | .object place => (heap.object place).get? (heap.text index)
    | _ => none
  return found.getD .undefined

/-- Refuses to write by an index. -/
def invalidIndex {α : Type} (base index : Value) (span : Span) : Eval α := do
  fault (.invalidTarget ("index " ++ (← get).heap.debug index) base.type) span

/-- Writes by place or, in an object, by the text of the index. -/
def setIndex (base index value : Value) (span : Span) : Eval Unit := do
  match base, Operators.place? index with
  | .array array, some i =>
      if i < Heap.arrayLimit then updateHeap (·.setItem array i value)
      else invalidIndex base index span
  | .host ref, some i => changeHeap (fun heap => heap.setItemOf ref i value) .host span
  | .object object, _ =>
      let name ← textOf index
      updateHeap (·.setField object name value)
  | _, _ => invalidIndex base index span

/-- A coordinate of a host object or of a coordinate pair. -/
def coordinateOf (axis : Axis) (target : Value) (span : Span) : Eval Value := do
  let heap := (← get).heap
  match target with
  | .host ref => return ((heap.coordinate ref axis).map .number).getD .undefined
  | .array place => return ((heap.array place)[axis.place]?).getD .undefined
  | other => fault (.argumentType axis.text [.element, .array] other.type) span

-- ================================================= boards and assignment

/-- Makes the board with a name the one that creators work on. -/
def useSession (name : String) (span : Span) : Eval Unit := do
  warn (.deprecatedUse span)
  let m ← get
  match m.host.selectSession m.heap name with
  | some session => set { m with session }
  | none => fault (.unknownBoard name) span

/-- Removes a host object; any other value is left alone. -/
def deleteValue (target : Value) (span : Span) : Eval Value := do
  warn (.deprecatedDelete span)
  match target with
  | .host ref => updateHeap (·.remove ref)
  | _ => pure ()
  return .undefined

/-- Numbers readable by name. -/
def namedConstant (name : String) : Option Float :=
  match name with
  | "PI" => some 3.141592653589793
  | "EULER" => some 2.718281828459045
  | _ => none

/-- The name that reads as the board of the current session. -/
def boardName : String := "$board"

def Machine.isPredefined (m : Machine) (name : String) : Bool :=
  m.builtins.any (·.name == name) || (namedConstant name).isSome || name == boardName

/-- Binds a name in the current scope. -/
def assignLocal (name : String) (value : Value) (span : Span) : Eval Unit := do
  let m ← get
  if m.options.warnOnShadowing && m.isPredefined name then warn (.shadowed name span)
  modify fun m => { m with scopes := m.scopes.define name value }

-- ================================================================== names

/-- What a name stands for where it is read: its innermost binding, a
named number, the board, or a host object; else undefined. -/
def readName (name : String) : Eval Value := do
  let m ← get
  return match m.scopes.lookup name with
    | some value => value
    | none =>
        match namedConstant name with
        | some x => .number x
        | none =>
            if name = boardName then (m.host.sessionObject m.session).getD .undefined
            else (m.host.select m.heap name).getD .undefined

/-- What a name stands for where it is called: a binding that can be
called, a builtin, a creator of the session, or a mathematical function. -/
def readCallee (name : String) (span : Span) : Eval Value := do
  let m ← get
  let bound := m.scopes.lookup name
  match bound with
  | some value => if value.isCallable then return value else predefined m bound
  | none => predefined m bound
where
  predefined (m : Machine) (bound : Option Value) : Eval Value := do
    match m.builtins.find? (·.name == name) with
    | some builtin => return .builtin builtin
    | none =>
        if m.host.has m.session name then
          let (creator, creators) := m.creators.get m.session name
          set { m with creators }
          return .creator creator
        else match MathFunction.ofName? name with
          | some function => return .math function
          | none =>
              match bound with
              | some value => fault (.notCallable name value.type) span
              | none => fault (.undefinedFunction name) span

/-- Makes a closure in the current scope. The host objects that its body
names are looked up now. -/
def makeClosure (literal : FunctionLiteral) (compiled : Option Chunk) (source : Source) :
    Eval Value := do
  if literal.isMap then
    if let some node := literal.body.notFormula then fault .notFormula node.span
  let m ← get
  let params := literal.params.map Name.text
  let names := literal.body.namesLookedUp.filter fun name => !params.contains name
  let dependencies := names.filterMap fun name =>
    match (m.scopes.lookup name).or (m.host.select m.heap name) with
    | some (.host ref) => some ref
    | _ => none
  set { m with nextClosure := m.nextClosure + 1 }
  return .closure ⟨m.nextClosure, literal, m.scopes.current, dependencies, compiled, source⟩

end BoardScript
