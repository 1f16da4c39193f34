/-
Listings of code: a line for each instruction with its offset, its name
and its operands read by the opcode's table, followed by the listings of
the functions among the constants. Parts of a line may be painted for a
terminal.
-/
import BoardScript.Code.Chunk

namespace BoardScript

/-- Whether a listing is painted. -/
inductive Paint where
  | plain
  | colored
deriving Repr, DecidableEq

namespace Paint

/-- A text between a terminal's code for a colour and its reset. -/
def apply (paint : Paint) (code : String) (text : String) : String :=
  match paint with
  | plain => text
  | colored => "\x1b[" ++ code ++ "m" ++ text ++ "\x1b[0m"

def dim (paint : Paint) : String → String := paint.apply "2"
def green (paint : Paint) : String → String := paint.apply "32"
def blue (paint : Paint) : String → String := paint.apply "34"
def purple (paint : Paint) : String → String := paint.apply "35"

end Paint

/-- A number with zeros in front, four digits wide at least. -/
def fourDigits (n : Nat) : String :=
  let digits := Nat.toDigits 10 n
  String.ofList (List.replicate (4 - digits.length) '0' ++ digits)

namespace Chunk

variable (chunk : Chunk) (paint : Paint)

/-- Reads an operand and writes it down. -/
def renderOperand (offset : Nat) : Operand → Except CodeError (Nat × String)
  | .constant => do
      let (next, address) ← chunk.readAddress offset
      let value ← chunk.constantAt address
      return (next, paint.green address.text ++ " = " ++ paint.blue value.text)
  | .forward => do
      let (next, distance) ← chunk.readU16 offset
      return (next, paint.green ("-> " ++ fourDigits (next + distance)))
  | .backward => do
      let (next, distance) ← chunk.readU16 offset
      if distance ≤ next then return (next, paint.green ("-> " ++ fourDigits (next - distance)))
      else throw (.invalidOperand next "a jump inside the chunk")
  | .axis => do
      let (next, axis) ← chunk.readAxis offset
      return (next, paint.blue axis.text)
  | .operator => do
      let (next, operator) ← chunk.readOperator offset
      return (next, paint.blue operator.text)
  | .count => do
      let (next, count) ← chunk.readU8 offset
      return (next, paint.blue (toString count.toNat))
  | .arguments => do
      let (next, count) ← chunk.readU8 offset
      return (next, paint.blue s!"({count.toNat})")

/-- Operands one after the other, each with a blank in front. -/
def renderOperands (offset : Nat) : List Operand → Except CodeError (Nat × String)
  | [] => .ok (offset, "")
  | operand :: rest => do
      let (offset, text) ← chunk.renderOperand paint offset operand
      let (offset, more) ← renderOperands offset rest
      return (offset, " " ++ text ++ more)

/-- The line of the instruction at an offset, and the offset behind it. -/
def renderInstruction (start : Nat) : Except CodeError (Nat × String) := do
  let (offset, op) ← chunk.readOpCode start
  let (offset, operands) ← chunk.renderOperands paint offset op.operands
  return (offset, paint.dim (fourDigits start) ++ " | " ++ paint.purple op.name ++ operands)

/-- The lines from an offset to the end of the code. Every instruction has
a byte, so as many steps as there are bytes suffice. -/
def renderFrom : (fuel : Nat) → (offset : Nat) → Except CodeError String
  | 0, _ => .ok ""
  | fuel + 1, offset =>
      if offset < chunk.code.size then do
        let (next, line) ← chunk.renderInstruction paint offset
        return line ++ "\n" ++ (← renderFrom fuel next)
      else .ok ""

end Chunk

mutual

/-- The listing of a chunk and of the functions it holds. -/
def Chunk.listing (paint : Paint) : Chunk → Except CodeError String
  | ⟨name, source, code, spans, constants⟩ => do
      let chunk : Chunk := ⟨name, source, code, spans, constants⟩
      let lines ← chunk.renderFrom paint code.size 0
      return "== " ++ name ++ " ==\n" ++ lines ++ (← listingAll paint constants)

/-- The listing of a constant, with an empty line in front. -/
def Constant.listing (paint : Paint) : Constant → Except CodeError String
  | .function _ chunk => do return "\n" ++ (← chunk.listing paint)
  | .number _ => .ok ""
  | .string _ => .ok ""

/-- The listings of all function constants. -/
def listingAll (paint : Paint) : List Constant → Except CodeError String
  | [] => .ok ""
  | constant :: rest => do
      let first ← constant.listing paint
      return first ++ (← listingAll paint rest)

end

end BoardScript
