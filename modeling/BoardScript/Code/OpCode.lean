/-
The instructions of the stack machine. An instruction is an opcode byte
and its operands. One table says of each opcode how many bytes of operands
follow it, for whatever goes from instruction to instruction; another says
what the operands are, for what writes them down.
-/
import BoardScript.Program.Node

namespace BoardScript

/-- An operand: what its bytes mean. -/
inductive Operand where
  /-- one byte, a place in the table of constants -/
  | constant
  /-- two bytes, a distance forward -/
  | forward
  /-- two bytes, a distance back -/
  | backward
  /-- one byte, an axis -/
  | axis
  /-- one byte, a binary operator -/
  | operator
  /-- one byte, a number of values on the stack -/
  | count
  /-- one byte, a number of arguments on the stack -/
  | arguments
deriving Repr, DecidableEq

def Operand.width : Operand → Nat
  | .forward | .backward => 2
  | .constant | .axis | .operator | .count | .arguments => 1

/-- An opcode. Every instruction that finishes an expression leaves
exactly one value on the stack. -/
inductive OpCode where
  | constant
  | undefined
  | true
  | false
  | pop
  | getName
  | getCallee
  | setLocal
  | getProperty
  | setProperty
  | getIndex
  | setIndex
  | coordinate
  | binary
  | negate
  | not
  | jump
  | jumpIfFalse
  | loop
  | array
  | object
  | closure
  | call
  | callWithAttributes
  | callNamed
  | giveBack
  | stop
  | useBoard
  | delete
deriving Repr, DecidableEq, Inhabited

namespace OpCode

/-- Every opcode, in the order of their bytes. -/
def all : List OpCode :=
  [.constant, .undefined, .true, .false, .pop, .getName, .getCallee, .setLocal, .getProperty,
   .setProperty, .getIndex, .setIndex, .coordinate, .binary, .negate, .not, .jump, .jumpIfFalse,
   .loop, .array, .object, .closure, .call, .callWithAttributes, .callNamed, .giveBack, .stop,
   .useBoard, .delete]

def byte (op : OpCode) : UInt8 := op.ctorIdx.toUInt8

def ofByte? (b : UInt8) : Option OpCode := all[b.toNat]?

/-- The name of an opcode in listings. -/
def name : OpCode → String
  | constant => "Constant"
  | undefined => "Undefined"
  | true => "True"
  | false => "False"
  | pop => "Pop"
  | getName => "GetName"
  | getCallee => "GetCallee"
  | setLocal => "SetLocal"
  | getProperty => "GetProperty"
  | setProperty => "SetProperty"
  | getIndex => "GetIndex"
  | setIndex => "SetIndex"
  | coordinate => "Coordinate"
  | binary => "Binary"
  | negate => "Negate"
  | not => "Not"
  | jump => "Jump"
  | jumpIfFalse => "JumpIfFalse"
  | loop => "Loop"
  | array => "Array"
  | object => "Object"
  | closure => "Closure"
  | call => "Call"
  | callWithAttributes => "CallWithAttributes"
  | callNamed => "CallNamed"
  | giveBack => "Return"
  | stop => "End"
  | useBoard => "Use"
  | delete => "Delete"

/-- The operands that follow an opcode. -/
def operands : OpCode → List Operand
  | constant | getName | getCallee | setLocal | getProperty | setProperty | closure | useBoard =>
      [.constant]
  | jump | jumpIfFalse => [.forward]
  | loop => [.backward]
  | coordinate => [.axis]
  | binary => [.operator]
  | array | object => [.count]
  | call | callWithAttributes => [.arguments, .constant]
  | callNamed => [.arguments, .constant, .constant]
  | undefined | true | false | pop | getIndex | setIndex | negate | not | giveBack | stop | delete =>
      []

/-- How many bytes of operands follow an opcode. -/
def operandWidth : OpCode → Nat
  | constant | getName | getCallee | setLocal | getProperty | setProperty | coordinate | binary
  | array | object | closure | useBoard => 1
  | jump | jumpIfFalse | loop | call | callWithAttributes => 2
  | callNamed => 3
  | undefined | true | false | pop | getIndex | setIndex | negate | not | giveBack | stop | delete => 0

end OpCode

def Axis.byte (axis : Axis) : UInt8 := axis.ctorIdx.toUInt8

def Axis.ofByte? (b : UInt8) : Option Axis := [Axis.x, Axis.y][b.toNat]?

def BinaryOperator.byte (operator : BinaryOperator) : UInt8 := operator.ctorIdx.toUInt8

def BinaryOperator.ofByte? (b : UInt8) : Option BinaryOperator := BinaryOperator.all[b.toNat]?

end BoardScript
