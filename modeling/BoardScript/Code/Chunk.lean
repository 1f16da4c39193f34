/-
A chunk of code: its bytes, the constants they refer to by place, and for
each instruction the span of text it was made from. The function constants
of a chunk hold chunks in turn.

Reading is checked: any bytes can stand in a chunk, and what cannot be
read is an error, not a guess.
-/
import BoardScript.Code.OpCode
import BoardScript.Decimal.Shortest
import BoardScript.Text.Quoted
import BoardScript.Text.Source

namespace BoardScript

/-- A place in a table of constants. -/
structure Address where
  byte : UInt8
deriving Repr, DecidableEq, Inhabited

def Address.text (a : Address) : String := s!"@{a.byte.toNat}"

/-- Why code cannot be read or carried on with. -/
inductive CodeError where
  | unexpectedEnd
  | invalidOpCode (offset : Nat) (byte : UInt8)
  | invalidConstant (address : Address)
  | invalidOperand (offset : Nat) (expected : String)
  | missingSpan (offset : Nat)
  | stackUnderflow
  | unknownScope (scope : Nat)
deriving Repr, DecidableEq

def CodeError.message : CodeError → String
  | .unexpectedEnd => "Unexpected end of code"
  | .invalidOpCode offset byte => s!"Unexpected opcode {byte.toNat} at index {offset}"
  | .invalidConstant address => s!"Unknown constant {address.text}"
  | .invalidOperand offset expected => s!"Expected {expected} at index {offset}"
  | .missingSpan offset => s!"No source span for the instruction at index {offset}"
  | .stackUnderflow => "Stack underflow"
  | .unknownScope scope => s!"Scope {scope} is no longer alive"

mutual

/-- A value that code refers to by its place in a table. -/
inductive Constant where
  | number (value : Float)
  | string (value : String)
  | function (literal : FunctionLiteral) (chunk : Chunk)

/-- A chunk of code. -/
structure Chunk where
  name : String
  source : Source
  code : Array UInt8
  /-- the span of each instruction, at its first byte -/
  spans : Array (Option Span)
  constants : List Constant

end

def Constant.text : Constant → String
  | .number value => Decimal.Style.listing.write value
  | .string value => Quoted.quote value
  | .function _ chunk => "<" ++ chunk.name ++ ">"

-- ============================================================== constants

/-- Whether two constants can share a place. Numbers that compare equal
do, and so do two that are no number; functions never do. -/
def Constant.shares : Constant → Constant → Bool
  | .number a, .number b => a == b || (a.isNaN && b.isNaN)
  | .string a, .string b => a == b
  | _, _ => false

/-- Finds a place for a constant, a new one only if no constant of the
table shares its own. There are 256 places. -/
def registerConstant (constants : List Constant) (constant : Constant) :
    Option (List Constant × Address) :=
  match constants.findIdx? (·.shares constant) with
  | some place => some (constants, ⟨place.toUInt8⟩)
  | none =>
      if constants.length < 256 then some (constants ++ [constant], ⟨constants.length.toUInt8⟩)
      else none

-- ================================================================ reading

namespace Chunk

variable (chunk : Chunk)

def constantAt (address : Address) : Except CodeError Constant :=
  match chunk.constants[address.byte.toNat]? with
  | some constant => .ok constant
  | none => .error (.invalidConstant address)

def readByte (offset : Nat) : Except CodeError UInt8 :=
  match chunk.code[offset]? with
  | some byte => .ok byte
  | none => .error .unexpectedEnd

/-- The span of the instruction at an offset. -/
def spanAt (offset : Nat) : Option Span := (chunk.spans[offset]?).join

def readOpCode (offset : Nat) : Except CodeError (Nat × OpCode) := do
  let byte ← chunk.readByte offset
  match OpCode.ofByte? byte with
  | some op => return (offset + 1, op)
  | none => throw (.invalidOpCode offset byte)

/-- The offset of the instruction behind the one at `offset`. -/
def nextInstruction (offset : Nat) : Except CodeError Nat := do
  let (offset, op) ← chunk.readOpCode offset
  return offset + op.operandWidth

def readU8 (offset : Nat) : Except CodeError (Nat × UInt8) := do
  return (offset + 1, ← chunk.readByte offset)

/-- Two bytes, the high one first. -/
def readU16 (offset : Nat) : Except CodeError (Nat × Nat) := do
  let high ← chunk.readByte offset
  let low ← chunk.readByte (offset + 1)
  return (offset + 2, high.toNat * 256 + low.toNat)

def readAddress (offset : Nat) : Except CodeError (Nat × Address) := do
  return (offset + 1, ⟨← chunk.readByte offset⟩)

def readConstant (offset : Nat) : Except CodeError (Nat × Constant) := do
  let (next, address) ← chunk.readAddress offset
  return (next, ← chunk.constantAt address)

/-- A constant that has to be a text. -/
def readName (offset : Nat) : Except CodeError (Nat × String) := do
  match ← chunk.readConstant offset with
  | (next, .string name) => return (next, name)
  | _ => throw (.invalidOperand offset "a string constant")

def readAxis (offset : Nat) : Except CodeError (Nat × Axis) := do
  let (next, byte) ← chunk.readU8 offset
  match Axis.ofByte? byte with
  | some axis => return (next, axis)
  | none => throw (.invalidOperand next "an axis")

def readOperator (offset : Nat) : Except CodeError (Nat × BinaryOperator) := do
  let (next, byte) ← chunk.readU8 offset
  match BinaryOperator.ofByte? byte with
  | some operator => return (next, operator)
  | none => throw (.invalidOperand next "a binary operator")

-- ================================================================ writing

/-- A chunk without code or constants. -/
def empty (name : String) (source : Source) : Chunk := ⟨name, source, #[], #[], []⟩

/-- Adds a byte that begins no instruction. -/
def writeByte (byte : UInt8) : Chunk :=
  { chunk with code := chunk.code.push byte, spans := chunk.spans.push none }

/-- Overwrites two bytes, the high one first. -/
def patchU16 (offset value : Nat) : Chunk :=
  let code := chunk.code.setIfInBounds offset (value / 256).toUInt8
  { chunk with code := code.setIfInBounds (offset + 1) (value % 256).toUInt8 }

end Chunk

end BoardScript
