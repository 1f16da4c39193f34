/-
What the operators do. Arithmetic on arrays goes item by item and into
arrays inside arrays; the product of two arrays is their scalar product. A
plus next to a string joins texts.

Results that are arrays are put on the heap, which is threaded through.
-/
import BoardScript.Value.Heap

namespace BoardScript

/-- An operator applied to types it is not defined on. -/
structure Mismatch where
  left : ValueType
  right : ValueType
deriving Repr, DecidableEq

/-- A computation on the heap that may find a mismatch. -/
abbrev Operation := StateT Heap (Except Mismatch)

namespace Operators

/-- How close to each other numbers are that count as equal. -/
def epsilon : Float := 1e-6

def mismatch {α : Type} (left right : Value) : Operation α := throw ⟨left.type, right.type⟩

def newArray (items : List Value) : Operation Value := fun h => .ok (h.newArray items.toArray)

def items (place : ArrayId) : Operation (List Value) := return ((← get).array place).toList

/-- Whether `==` holds. A boolean equals the number that stands for it. -/
def equal : Value → Value → Bool
  | .number x, .boolean b => x == if b then 1.0 else 0.0
  | .boolean b, .number x => x == if b then 1.0 else 0.0
  | left, right => left.same right

/-- Addition; `depth` bounds how far arrays are entered. -/
def add : (depth : Nat) → Value → Value → Operation Value
  | depth + 1, .array a, .array b => do
      newArray (← ((← items a).zip (← items b)).mapM fun (x, y) => add depth x y)
  | _, .number x, .number y => return .number (x + y)
  | _, .string x, right => return .string (x ++ (← get).text right)
  | _, left, .string y => return .string ((← get).text left ++ y)
  | _, left, right => mismatch left right

def subtract : (depth : Nat) → Value → Value → Operation Value
  | depth + 1, .array a, .array b => do
      newArray (← ((← items a).zip (← items b)).mapM fun (x, y) => subtract depth x y)
  | _, .number x, .number y => return .number (x - y)
  | _, left, right => mismatch left right

/-- The sum of the products of paired items. -/
def scalarProduct (sum : Float) : List (Value × Value) → Operation Value
  | [] => return .number sum
  | (.number x, .number y) :: rest => scalarProduct (sum + x * y) rest
  | (x, y) :: _ => mismatch x y

def multiply : (depth : Nat) → Value → Value → Operation Value
  | _, .number x, .number y => return .number (x * y)
  | _, .array a, .array b => do scalarProduct 0.0 ((← items a).zip (← items b))
  | depth + 1, .array a, .number y => do
      newArray (← (← items a).mapM fun item => multiply depth item (.number y))
  | depth + 1, .number x, .array b => do
      newArray (← (← items b).mapM fun item => multiply depth (.number x) item)
  | _, left, right => mismatch left right

def divide : (depth : Nat) → Value → Value → Operation Value
  | _, .number x, .number y => return .number (x / y)
  | depth + 1, .array a, .number y => do
      newArray (← (← items a).mapM fun item => divide depth item (.number y))
  | _, left, right => mismatch left right

/-- The remainder with the sign of the divisor. -/
def remainder (x y : Float) : Float := x - y * (x / y).floor

def modulo : (depth : Nat) → Value → Value → Operation Value
  | _, .number x, .number y => return .number (remainder x y)
  | depth + 1, .array a, .number y => do
      newArray (← (← items a).mapM fun item => modulo depth item (.number y))
  | _, left, right => mismatch left right

/-- The order of two numbers or two strings; none if one is no number. -/
def order : Value → Value → Operation (Option Ordering)
  | .number x, .number y =>
      return if x < y then some .lt else if x > y then some .gt else if x == y then some .eq else none
  | .string x, .string y => return some (compare x y)
  | left, right => mismatch left right

/-- A comparison that accepts some of the orders. -/
def ordered (left right : Value) (accepts : Ordering → Bool) : Operation Value := do
  return .boolean (((← order left right).map accepts).getD false)

/-- An operator on two values. -/
def binary (operator : BinaryOperator) (left right : Value) : Operation Value := do
  let depth := (← get).depth
  match operator with
  | .equal => return .boolean (equal left right)
  | .notEqual => return .boolean (!equal left right)
  | .approx =>
      match left, right with
      | .number x, .number y => return .boolean ((x - y).abs < epsilon)
      | _, _ => mismatch left right
  | .less => ordered left right (· == .lt)
  | .greater => ordered left right (· == .gt)
  | .lessEqual => ordered left right (· != .gt)
  | .greaterEqual => ordered left right (· != .lt)
  | .add => add depth left right
  | .subtract => subtract depth left right
  | .multiply => multiply depth left right
  | .divide => divide depth left right
  | .modulo => modulo depth left right
  | .power =>
      match left, right with
      | .number x, .number y => return .number (Float.pow x y)
      | _, _ => mismatch left right
  | .and => return if left.truthy then right else left
  | .or => return if left.truthy then left else right

/-- Negation of numbers and of arrays of them; the error is the type met. -/
def negate : (depth : Nat) → Value → StateT Heap (Except ValueType) Value
  | _, .number x => return .number (-x)
  | depth + 1, .array place => fun h => do
      let (items, h) ← ((h.array place).toList.mapM (negate depth)).run h
      return h.newArray items.toArray
  | _, operand => throw operand.type

/-- An operator on one value. -/
def unary (operator : UnaryOperator) (operand : Value) : StateT Heap (Except ValueType) Value := do
  match operator with
  | .not => return .boolean (!operand.truthy)
  | .negate => negate (← get).depth operand

/-- A number next to a non-negative integer, read as a place. Numbers past
the machine's integers count as the largest. -/
def place? (index : Value) : Option Nat := do
  let x ← index.number?
  let rounded := x.round
  if (x - rounded).abs < epsilon && rounded >= 0.0 then some rounded.toUInt64.toNat else none

end Operators

end BoardScript
