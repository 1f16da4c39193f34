/-
What compiled code does, told along the tree. A plan is a program of
instructions: before each of them it is asked whether to go on, then it
acts on the machine or calls a value, and what comes next depends on the
outcome; an instruction may also end the chunk. A plan for a node says what
the code of the node does, without any code, place or stack (`Node.plan`).

Plans end. A loop in one goes round so many times at most and is cut off
then, just as in a run from the tree. They can be run to their end
(`Plan.run`), or for so many instructions only (`Plan.runFor`), which is how
code is run.
-/
import BoardScript.Proofs.Code.Balanced
import BoardScript.Proofs.Run.Steady
import BoardScript.Run.Tree

namespace BoardScript

/-- A program of instructions that comes to a value of a type. -/
inductive Plan (α : Type) : Type 1 where
  /-- nothing more to do -/
  | give (a : α)
  /-- an instruction that calls nothing -/
  | act {β : Type} (span : Span) (x : Eval β) (steady : Steady x) (next : β → Plan α)
  /-- an instruction that calls a value, with the attributes in an object; it
  is the last one of the code of `node`, which is carried along to say which
  call of the program this is and has no part in the run -/
  | call (node : Node) (function : Value) (args : List Value) (attributes : Option ObjectId)
      (site : CallSite) (next : Value → Plan α)
  /-- an instruction that ends the chunk with a value -/
  | done (span : Span) (x : Eval Value) (steady : Steady x)
  /-- a loop that has gone round as often as it may -/
  | cut

/-- The attributes in an object, if there are any. -/
def attributesAt : Option ObjectId → Eval (Option Fields)
  | none => return none
  | some place => return some ((← get).heap.object place)

/-- Gives back a value, if there is a function to give it back from. -/
def handBack (value : Value) (span : Span) : Eval Value := do
  if (← get).scopes.isGlobal then fault .unexpectedReturn span else return value

/-- Puts an object on the heap and tells where it is. -/
def placeObject (fields : Fields) : Eval ObjectId := do
  let m ← get
  let _ ← allocate (·.newObject fields)
  return ⟨m.heap.objects.size⟩

theorem steady_placeObject (fields : Fields) : Steady (placeObject fields) :=
  .reading fun _ => (steady_allocate _).bind fun _ => .pure _

theorem steady_attributesAt (attributes : Option ObjectId) : Steady (attributesAt attributes) := by
  cases attributes with
  | none => exact .pure _
  | some place => exact .reading fun _ => .pure _

theorem steady_handBack (value : Value) (span : Span) : Steady (handBack value span) := by
  refine .reading fun m => ?_
  split
  · exact steady_fault _ _ rfl
  · exact .pure _

namespace Plan

variable {α β : Type}

/-- One plan, and then another. -/
def bind : Plan α → (α → Plan β) → Plan β
  | .give a, q => q a
  | .act span x steady next, q => .act span x steady fun b => (next b).bind q
  | .call node function args attributes site next, q =>
      .call node function args attributes site fun v => (next v).bind q
  | .done span x steady, _ => .done span x steady
  | .cut, _ => .cut

instance : Monad Plan where
  pure := .give
  bind := .bind

theorem bind_give (p : Plan α) : p.bind .give = p := by
  induction p with
  | give a => rfl
  | act span x steady next ih => exact congrArg (act span x steady) (funext ih)
  | call node function args attributes site next ih =>
      exact congrArg (call node function args attributes site) (funext ih)
  | done span x steady => rfl
  | cut => rfl

theorem bind_bind {γ : Type} (p : Plan α) (q : α → Plan β) (r : β → Plan γ) :
    (p.bind q).bind r = p.bind fun a => (q a).bind r := by
  induction p with
  | give a => rfl
  | act span x steady next ih => exact congrArg (act span x steady) (funext ih)
  | call node function args attributes site next ih =>
      exact congrArg (call node function args attributes site) (funext ih)
  | done span x steady => rfl
  | cut => rfl

instance : LawfulMonad Plan := .mk' Plan bind_give (fun _ _ => rfl) bind_bind

/-- A single instruction that calls nothing. -/
def instr (span : Span) (x : Eval β) (steady : Steady x) : Plan β := .act span x steady .give

/-- An instruction that only moves on. -/
def move (span : Span) : Plan Unit := instr span (Pure.pure ()) (Steady.pure ())

/-- Whatever a plan comes to has a property. -/
def Gives (P : α → Prop) : Plan α → Prop
  | .give a => P a
  | .act _ _ _ next => ∀ b, (next b).Gives P
  | .call _ _ _ _ _ next => ∀ v, (next v).Gives P
  | .done .. => True
  | .cut => True

theorem gives_of_forall {P : α → Prop} (h : ∀ a, P a) (p : Plan α) : p.Gives P := by
  induction p with
  | give a => exact h a
  | act span x steady next ih => exact ih
  | call node function args attributes site next ih => exact ih
  | done span x steady => trivial
  | cut => trivial

theorem Gives.bind {P : α → Prop} {Q : β → Prop} {p : Plan α} {q : α → Plan β} (hp : p.Gives P)
    (hq : ∀ a, P a → (q a).Gives Q) : (p >>= q).Gives Q := by
  induction p with
  | give a => exact hq a hp
  | act span x steady next ih => exact fun b => ih b (hp b)
  | call node function args attributes site next ih => exact fun v => ih v (hp v)
  | done span x steady => trivial
  | cut => trivial

/-- Runs a plan to its end. A value that ends the chunk is on its way out. -/
def run (env : Env) : Plan α → Eval α
  | .give a => return a
  | .act span x _ next => do
      env.ask span
      let b ← x
      (next b).run env
  | .call _ function args attributes site next => do
      env.ask site.span
      let fields ← attributesAt attributes
      let value ← callValue env.call function args fields site
      (next value).run env
  | .done span x _ => do
      env.ask span
      throw (.returned (← x))
  | .cut => throw .exhausted

/-- Runs a plan for so many instructions, and then goes on with what it came
to and the instructions that are left. -/
def runFor (env : Env) (go : α → Nat → Eval Value) : Plan α → Nat → Eval Value
  | .give a, fuel => go a fuel
  | .cut, _ => throw .exhausted
  | _, 0 => throw .exhausted
  | .act span x _ next, fuel + 1 => do
      env.ask span
      let b ← x
      (next b).runFor env go fuel
  | .call _ function args attributes site next, fuel + 1 => do
      env.ask site.span
      let fields ← attributesAt attributes
      let value ← callValue env.call function args fields site
      (next value).runFor env go fuel
  | .done span x _, _ + 1 => do
      env.ask span
      x

end Plan

-- ===================================================================== nodes

namespace Plan

/-- A choice by a value that is there to be looked at. -/
def choice (v : Value) (yes no : Plan Value) (span : Span) : Plan Value := do
  move span
  move span
  if v.truthy then
    let result ← yes
    move span
    return result
  else no

/-- A loop from its condition on, for so many turns. -/
def looping (condition : Plan Value) (turn : Plan Unit) (span : Span) : (turns : Nat) → Plan Value
  | 0 => cut
  | turns + 1 => do
      let v ← condition
      move span
      move span
      if v.truthy then
        turn
        looping condition turn span turns
      else
        move span
        return .undefined

/-- Makes an object and tells where it is. -/
def makeObject (fields : Fields) (span : Span) : Plan ObjectId :=
  instr span (placeObject fields) (steady_placeObject fields)

/-- A closure, with the code of its literal. -/
def closure (source : Source) (literal : FunctionLiteral) (span : Span) : Plan Value :=
  instr span (makeClosure literal (literal.compile source).toOption source)
    (steady_makeClosure _ _ _)

/-- What is called; a name is resolved as something to be called. -/
def resolved (callee : Node) (value : Plan Value) : Plan Value :=
  match callee.name? with
  | some name => instr callee.span (readCallee name callee.span) (steady_readCallee _ _)
  | none => value

/-- The call that a node is, given how to get at its parts. -/
def calling (source : Source) (node callee : Node) (calleeValue : Plan Value) (args : Plan (List Value))
    (attributes : Option (Plan (List (String × Value)))) (naming : Option String) (span : Span) :
    Plan Value := do
  let function ← resolved callee calleeValue
  let args ← args
  match attributes with
  | some attributes => do
      let pairs ← attributes
      let object ← makeObject (Fields.ofPairs pairs) span
      .call node function args (some object) ⟨span, Compile.calleeText callee, none, source⟩ .give
  | none => .call node function args none ⟨span, Compile.calleeText callee, naming, source⟩ .give

end Plan

open Plan

mutual

/-- What the code of a node does. -/
def Node.plan (place : Compile.Place) (turns : Nat) (naming : Option String) : Node → Plan Value
  | .block statements span =>
      if statements.isEmpty then do
        move span
        return .undefined
      else planStatements place turns statements
  | .assign name value _ => do
      let v ← value.plan place turns (some name.text)
      instr name.span (assignLocal name.text v name.span) (steady_assignLocal _ _ _)
      return v
  | .assignProperty object name value _ => do
      let o ← object.plan place turns none
      let v ← value.plan place turns none
      instr name.span (setProperty o name.text v name.span) (steady_setProperty _ _ _ _)
      return v
  | .assignIndex base index value _ => do
      let b ← base.plan place turns none
      let i ← index.plan place turns none
      let v ← value.plan place turns none
      instr value.span (setIndex b i v value.span) (steady_setIndex _ _ _ _)
      return v
  | .ifThen condition yes span => do
      let v ← condition.plan place turns none
      choice v (yes.plan place turns none) (do move span; return .undefined) span
  | .ifElse condition yes no span => do
      let v ← condition.plan place turns none
      choice v (yes.plan place turns none) (no.plan place turns none) span
  | .conditional condition yes no span => do
      let v ← condition.plan place turns none
      choice v (yes.plan place turns none) (no.plan place turns none) span
  | .whileLoop condition body span =>
      looping (condition.plan place turns none) (do
        let _ ← body.plan place turns none
        move span
        move span) span turns
  | .doLoop body condition span => do
      let _ ← body.plan place turns none
      move span
      looping (condition.plan place turns none) (do
        move span
        let _ ← body.plan place turns none
        move span) span turns
  | .forLoop init condition step body span => do
      let _ ← init.plan place turns none
      move span
      looping (condition.plan place turns none) (do
        let _ ← body.plan place turns none
        move span
        let _ ← step.plan place turns none
        move span
        move span) span turns
  | .useBoard name span => do
      instr span (useSession name.text span) (steady_useSession _ _)
      return .undefined
  | .delete operand span => do
      let v ← operand.plan place turns none
      instr span (deleteValue v span) (steady_deleteValue _ _)
  | .returnNothing span => do
      move span
      .done span (handBack .undefined span) (steady_handBack _ _)
  | .returnValue value span => do
      let v ← if place.inFunction then value.plan place turns none
        else
          move span
          pure .undefined
      .done span (handBack v span) (steady_handBack _ _)
  | .expression value _ => value.plan place turns none
  | .function params body literal span => closure place.source ⟨false, params, body, literal⟩ span
  | .map params body literal span => closure place.source ⟨true, params, body, literal⟩ span
  | .call callee args span =>
      calling place.source (.call callee args span) callee (callee.plan place turns none)
        (planAll place turns args) none naming span
  | .callWith callee args attributes span =>
      calling place.source (.callWith callee args attributes span) callee
        (callee.plan place turns none) (planAll place turns args)
        (some (planPairs place turns attributes)) naming span
  | .array items span => do
      let values ← planAll place turns items
      instr span (allocate (·.newArray values.toArray)) (steady_allocate _)
  | .object properties span => do
      let pairs ← planPairs place turns properties
      instr span (allocate (·.newObject (Fields.ofPairs pairs))) (steady_allocate _)
  | .index base index span => do
      let b ← base.plan place turns none
      let i ← index.plan place turns none
      instr span (getIndex b i) (steady_getIndex _ _)
  | .binary .and left right span => do
      let v ← left.plan place turns none
      move span
      if v.truthy then
        move span
        right.plan place turns none
      else return v
  | .binary .or left right span => do
      let v ← left.plan place turns none
      move span
      move span
      if v.truthy then return v else right.plan place turns none
  | .binary operator left right span => do
      let l ← left.plan place turns none
      let r ← right.plan place turns none
      instr span (binaryOperation operator l r span) (steady_binaryOperation _ _ _ _)
  | .unary operator operand span => do
      let v ← operand.plan place turns none
      instr span (unaryOperation operator v span) (steady_unaryOperation _ _ _)
  | .identifier name span => instr span (readName name) (steady_readName _)
  | .numeral text _ span => do
      move span
      return .number (numeralValue text)
  | .string value span => do
      move span
      return .string value
  | .boolean value span => do
      move span
      return .boolean value
  | .coordinate axis operand span => do
      let v ← operand.plan place turns none
      instr span (coordinateOf axis v span) (steady_coordinateOf _ _ _)
  | .property object name _ => do
      let o ← object.plan place turns none
      instr name.span (getProperty o name.text name.span) (steady_getProperty _ _ _)

/-- What the code of statements does. -/
def planStatements (place : Compile.Place) (turns : Nat) : List Node → Plan Value
  | [] => return .undefined
  | [statement] => statement.plan place turns none
  | statement :: next :: rest => do
      let _ ← statement.plan place turns none
      move next.span
      planStatements place turns (next :: rest)

/-- What the code of expressions does. -/
def planAll (place : Compile.Place) (turns : Nat) : List Node → Plan (List Value)
  | [] => return []
  | node :: rest => do
      let value ← node.plan place turns none
      return value :: (← planAll place turns rest)

/-- What the code of properties does. -/
def planPairs (place : Compile.Place) (turns : Nat) : List Property → Plan (List (String × Value))
  | [] => return []
  | .mk name value :: rest => do
      move name.span
      let v ← value.plan place turns none
      return (name.text, v) :: (← planPairs place turns rest)

end

/-- Expressions come to as many values. -/
theorem planAll_gives (place : Compile.Place) (turns : Nat) (nodes : List Node) :
    (planAll place turns nodes).Gives fun values => values.length = nodes.length := by
  induction nodes with
  | nil =>
      rw [planAll]
      exact rfl
  | cons node rest ih =>
      rw [planAll]
      exact (gives_of_forall (fun _ => trivial) (node.plan place turns none)).bind
        fun v (_ : True) => ih.bind fun vs hvs => congrArg (· + 1) hvs

/-- Properties come to as many names and values. -/
theorem planPairs_gives (place : Compile.Place) (turns : Nat) (properties : List Property) :
    (planPairs place turns properties).Gives fun pairs => pairs.length = properties.length := by
  induction properties with
  | nil =>
      rw [planPairs]
      exact rfl
  | cons property rest ih =>
      obtain ⟨name, value⟩ := property
      rw [planPairs]
      exact fun _ => (gives_of_forall (fun _ => trivial) (value.plan place turns none)).bind
        fun v (_ : True) => ih.bind fun ps hps => congrArg (· + 1) hps

attribute [local simp] Node.plan in
/-- What the code of an operator does that always needs both operands. -/
theorem plan_binary {operator : BinaryOperator} (hand : operator ≠ .and) (hor : operator ≠ .or)
    (place : Compile.Place) (turns : Nat) (naming : Option String) (left right : Node) (span : Span) :
    (Node.binary operator left right span).plan place turns naming = (do
      let l ← left.plan place turns none
      let r ← right.plan place turns none
      instr span (binaryOperation operator l r span) (steady_binaryOperation _ _ _ _)) := by
  simp

/-- What the code of a function does. -/
def FunctionLiteral.plan (source : Source) (turns : Nat) (literal : FunctionLiteral) : Plan Value := do
  let span := literal.body.span
  let v ← literal.body.plan ⟨source, true⟩ turns none
  if literal.isMap then .done span (handBack v span) (steady_handBack _ _)
  else
    move span
    move span
    .done span (handBack .undefined span) (steady_handBack _ _)

/-- What the code of a script does. -/
def scriptPlan (source : Source) (turns : Nat) (root : Node) : Plan Value := do
  let v ← root.plan ⟨source, false⟩ turns none
  .done root.span (pure v) (Steady.pure v)

/-- Only an instruction ends a function. -/
theorem FunctionLiteral.plan_gives (source : Source) (turns : Nat) (literal : FunctionLiteral) :
    (literal.plan source turns).Gives fun _ => False := by
  rw [FunctionLiteral.plan]
  refine (gives_of_forall (fun _ => trivial) _).bind fun v (_ : True) => ?_
  split
  · trivial
  · exact fun _ _ => trivial

theorem scriptPlan_gives (source : Source) (turns : Nat) (root : Node) :
    (scriptPlan source turns root).Gives fun _ => False :=
  (gives_of_forall (fun _ => trivial) _).bind fun _ (_ : True) => trivial

end BoardScript
