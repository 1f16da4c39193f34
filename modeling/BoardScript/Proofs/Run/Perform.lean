/-
What each instruction does where it finds its operands: one equation an
opcode, with the values that it takes named. Nothing about code is left in
them but the place behind the instruction.

Values lie on the stack in the order in which they were put there, the
topmost first; so arguments are found in reverse, and the names and values
of properties too (`laid`).
-/
import BoardScript.Proofs.Code.Assembly
import BoardScript.Run.Stack

namespace BoardScript

namespace Frame

/-- Names and values as they are put on the stack, one behind the other. -/
def laid (pairs : List (String × Value)) : List Value :=
  pairs.flatMap fun (name, value) => [.string name, value]

@[simp] theorem laid_nil : laid [] = [] := rfl

@[simp] theorem laid_cons (name : String) (value : Value) (rest : List (String × Value)) :
    laid ((name, value) :: rest) = .string name :: value :: laid rest := rfl

@[simp] theorem laid_append (a b : List (String × Value)) : laid (a ++ b) = laid a ++ laid b :=
  List.flatMap_append

theorem length_laid (pairs : List (String × Value)) : (laid pairs).length = pairs.length * 2 := by
  induction pairs with
  | nil => rfl
  | cons p rest ih =>
      rw [laid_cons, List.length_cons, List.length_cons, ih, List.length_cons]
      omega

theorem pairs_laid (ip : Nat) (fields : List (String × Value)) :
    pairs ip (laid fields) = pure fields := by
  induction fields with
  | nil => rfl
  | cons p rest ih =>
      rw [laid_cons, pairs, ih]
      rfl

theorem popMany_reverse {count : Nat} {values : List Value} (h : count = values.length)
    (rest : List Value) : popMany count (values.reverse ++ rest) = pure (values, rest) := by
  have hlength : count = values.reverse.length := by rw [List.length_reverse, h]
  rw [popMany, if_pos (by rw [List.length_append]; omega), hlength, List.take_left,
    List.drop_left, List.reverse_reverse]

variable {env : Env} {chunk : Chunk} {ip : Nat} {op : OpCode} {args : List UInt8} {span : Span}
  {stack : List Value}

/-- A step asks, and then does what the instruction says. -/
theorem step_eq (h : chunk.Instruction ip op args span) :
    step env chunk ⟨ip, stack⟩ = (do
      env.ask span
      perform env chunk span (ip + 1) stack op) := by
  simp only [step, h.span, h.opcode]
  rfl

section

variable {place byte count high low : UInt8} {name text : String} {v w u : Value}
  {values : List Value}

theorem perform_number {x : Float} (h : chunk.Instruction ip .constant [place] span)
    (hc : chunk.constants[place.toNat]? = some (.number x)) :
    perform env chunk span (ip + 1) stack .constant = pure (.next ⟨ip + 2, .number x :: stack⟩) := by
  rw [perform, Chunk.readConstant_eq (h.operands 0 _ rfl) hc]
  rfl

theorem perform_text (h : chunk.Instruction ip .constant [place] span)
    (hc : chunk.constants[place.toNat]? = some (.string text)) :
    perform env chunk span (ip + 1) stack .constant
      = pure (.next ⟨ip + 2, .string text :: stack⟩) := by
  rw [perform, Chunk.readConstant_eq (h.operands 0 _ rfl) hc]
  rfl

theorem perform_getName (h : chunk.Instruction ip .getName [place] span)
    (hc : chunk.constants[place.toNat]? = some (.string name)) :
    perform env chunk span (ip + 1) stack .getName = (do
      let value ← readName name
      return .next ⟨ip + 2, value :: stack⟩) := by
  rw [perform, Chunk.readName_eq (h.operands 0 _ rfl) hc]
  rfl

theorem perform_getCallee (h : chunk.Instruction ip .getCallee [place] span)
    (hc : chunk.constants[place.toNat]? = some (.string name)) :
    perform env chunk span (ip + 1) stack .getCallee = (do
      let value ← readCallee name span
      return .next ⟨ip + 2, value :: stack⟩) := by
  rw [perform, Chunk.readName_eq (h.operands 0 _ rfl) hc]
  rfl

theorem perform_setLocal (h : chunk.Instruction ip .setLocal [place] span)
    (hc : chunk.constants[place.toNat]? = some (.string name)) :
    perform env chunk span (ip + 1) (v :: stack) .setLocal = (do
      assignLocal name v span
      return .next ⟨ip + 2, v :: stack⟩) := by
  rw [perform, Chunk.readName_eq (h.operands 0 _ rfl) hc]
  rfl

theorem perform_getProperty (h : chunk.Instruction ip .getProperty [place] span)
    (hc : chunk.constants[place.toNat]? = some (.string name)) :
    perform env chunk span (ip + 1) (v :: stack) .getProperty = (do
      let value ← getProperty v name span
      return .next ⟨ip + 2, value :: stack⟩) := by
  rw [perform, Chunk.readName_eq (h.operands 0 _ rfl) hc]
  rfl

theorem perform_setProperty (h : chunk.Instruction ip .setProperty [place] span)
    (hc : chunk.constants[place.toNat]? = some (.string name)) :
    perform env chunk span (ip + 1) (v :: w :: stack) .setProperty = (do
      setProperty w name v span
      return .next ⟨ip + 2, v :: stack⟩) := by
  rw [perform, Chunk.readName_eq (h.operands 0 _ rfl) hc]
  rfl

theorem perform_coordinate {axis : Axis} (h : chunk.Instruction ip .coordinate [byte] span)
    (hb : Axis.ofByte? byte = some axis) :
    perform env chunk span (ip + 1) (v :: stack) .coordinate = (do
      let value ← coordinateOf axis v span
      return .next ⟨ip + 2, value :: stack⟩) := by
  rw [perform, Chunk.readAxis_eq (h.operands 0 _ rfl) hb]
  rfl

theorem perform_binary {operator : BinaryOperator} (h : chunk.Instruction ip .binary [byte] span)
    (hb : BinaryOperator.ofByte? byte = some operator) :
    perform env chunk span (ip + 1) (v :: w :: stack) .binary = (do
      let value ← binaryOperation operator w v span
      return .next ⟨ip + 2, value :: stack⟩) := by
  rw [perform, Chunk.readOperator_eq (h.operands 0 _ rfl) hb]
  rfl

theorem perform_jump (h : chunk.Instruction ip .jump [high, low] span) :
    perform env chunk span (ip + 1) stack .jump
      = pure (.next ⟨ip + 3 + (high.toNat * 256 + low.toNat), stack⟩) := by
  rw [perform, Chunk.readU16_eq (h.operands 0 _ rfl) (h.operands 1 _ rfl)]
  rfl

theorem perform_jumpIfFalse (h : chunk.Instruction ip .jumpIfFalse [high, low] span) :
    perform env chunk span (ip + 1) (v :: stack) .jumpIfFalse
      = if v.truthy then pure (.next ⟨ip + 3, v :: stack⟩)
        else pure (.next ⟨ip + 3 + (high.toNat * 256 + low.toNat), v :: stack⟩) := by
  rw [perform, Chunk.readU16_eq (h.operands 0 _ rfl) (h.operands 1 _ rfl)]
  rfl

theorem perform_loop (h : chunk.Instruction ip .loop [high, low] span)
    (hback : high.toNat * 256 + low.toNat ≤ ip + 3) :
    perform env chunk span (ip + 1) stack .loop
      = pure (.next ⟨ip + 3 - (high.toNat * 256 + low.toNat), stack⟩) := by
  rw [perform, Chunk.readU16_eq (h.operands 0 _ rfl) (h.operands 1 _ rfl)]
  exact if_pos hback

theorem perform_array (h : chunk.Instruction ip .array [count] span)
    (hcount : count.toNat = values.length) :
    perform env chunk span (ip + 1) (values.reverse ++ stack) .array = (do
      let value ← allocate (·.newArray values.toArray)
      return .next ⟨ip + 2, value :: stack⟩) := by
  rw [perform, Chunk.readU8_eq (h.operands 0 _ rfl)]
  simp only [readCode, pure_bind, popMany_reverse hcount]

theorem perform_object {fields : List (String × Value)}
    (h : chunk.Instruction ip .object [count] span) (hcount : count.toNat = fields.length) :
    perform env chunk span (ip + 1) ((laid fields).reverse ++ stack) .object = (do
      let value ← allocate (·.newObject (Fields.ofPairs fields))
      return .next ⟨ip + 2, value :: stack⟩) := by
  have hlength : count.toNat * 2 = (laid fields).length := by rw [length_laid, hcount]
  rw [perform, Chunk.readU8_eq (h.operands 0 _ rfl)]
  simp only [readCode, pure_bind, popMany_reverse hlength, pairs_laid]

theorem perform_closure {literal : FunctionLiteral} {body : Chunk}
    (h : chunk.Instruction ip .closure [place] span)
    (hc : chunk.constants[place.toNat]? = some (.function literal body)) :
    perform env chunk span (ip + 1) stack .closure = (do
      let value ← makeClosure literal (some body) env.source
      return .next ⟨ip + 2, value :: stack⟩) := by
  rw [perform, Chunk.readConstant_eq (h.operands 0 _ rfl) hc]
  rfl

theorem perform_call (h : chunk.Instruction ip .call [count, place] span)
    (hc : chunk.constants[place.toNat]? = some (.string text)) (hcount : count.toNat = values.length) :
    perform env chunk span (ip + 1) (values.reverse ++ v :: stack) .call = (do
      let value ← callValue env.call v values none ⟨span, text, none, env.source⟩
      return .next ⟨ip + 3, value :: stack⟩) := by
  rw [perform, performCall, Chunk.readU8_eq (h.operands 0 _ rfl)]
  simp only [readCode, pure_bind, Chunk.readName_eq (h.operands 1 _ rfl) hc, readNaming,
    popAttributes, Bool.false_eq_true, if_false, popMany_reverse hcount, pop]

theorem perform_callNamed (h : chunk.Instruction ip .callNamed [count, place, byte] span)
    (hc : chunk.constants[place.toNat]? = some (.string text))
    (hname : chunk.constants[byte.toNat]? = some (.string name))
    (hcount : count.toNat = values.length) :
    perform env chunk span (ip + 1) (values.reverse ++ v :: stack) .callNamed = (do
      let value ← callValue env.call v values none ⟨span, text, some name, env.source⟩
      return .next ⟨ip + 4, value :: stack⟩) := by
  rw [perform, performCall, Chunk.readU8_eq (h.operands 0 _ rfl)]
  simp only [readCode, pure_bind, Chunk.readName_eq (h.operands 1 _ rfl) hc, readNaming,
    Chunk.readName_eq (h.operands 2 _ rfl) hname, popAttributes, Bool.false_eq_true, if_false,
    if_true, popMany_reverse hcount, pop]

theorem perform_callWithAttributes {fields : ObjectId}
    (h : chunk.Instruction ip .callWithAttributes [count, place] span)
    (hc : chunk.constants[place.toNat]? = some (.string text)) (hcount : count.toNat = values.length) :
    perform env chunk span (ip + 1) (.object fields :: (values.reverse ++ v :: stack))
        .callWithAttributes = (do
      let attributes := (← get).heap.object fields
      let value ← callValue env.call v values (some attributes) ⟨span, text, none, env.source⟩
      return .next ⟨ip + 3, value :: stack⟩) := by
  rw [perform, performCall, Chunk.readU8_eq (h.operands 0 _ rfl)]
  simp only [readCode, pure_bind, Chunk.readName_eq (h.operands 1 _ rfl) hc, readNaming,
    popAttributes, Bool.false_eq_true, if_false, if_true, pop, bind_assoc, popMany_reverse hcount]

theorem perform_useBoard (h : chunk.Instruction ip .useBoard [place] span)
    (hc : chunk.constants[place.toNat]? = some (.string name)) :
    perform env chunk span (ip + 1) stack .useBoard = (do
      useSession name span
      return .next ⟨ip + 2, .undefined :: stack⟩) := by
  rw [perform, Chunk.readName_eq (h.operands 0 _ rfl) hc]
  rfl

end

end Frame

end BoardScript
