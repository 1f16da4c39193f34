/-
The builtin functions: output, look-up and removal of elements, distances
and angles, and the logarithms and other functions that the mathematical
table does not have.
-/
import BoardScript.Run.Machine

namespace BoardScript

namespace Builtin

/-- Exactly so many arguments. -/
def exactly (n : Nat) : Arity := ⟨n, some n⟩

/-- The builtins that every interpreter has. -/
def standard : List Builtin :=
  [⟨"$log", ⟨0, none⟩, .log⟩,
   ⟨"$", exactly 1, .select⟩,
   ⟨"remove", exactly 1, .remove⟩,
   ⟨"IfThen", exactly 3, .ifThen⟩,
   ⟨"V", exactly 1, .value⟩,
   ⟨"L", exactly 1, .length⟩,
   ⟨"dist", exactly 2, .dist⟩,
   ⟨"rad", exactly 3, .rad⟩,
   ⟨"deg", exactly 3, .deg⟩,
   ⟨"factorial", exactly 1, .factorial⟩,
   ⟨"trunc", ⟨1, some 2⟩, .trunc⟩,
   ⟨"log", ⟨1, some 2⟩, .logarithm⟩,
   ⟨"ln", exactly 1, .ln⟩,
   ⟨"log10", exactly 1, .log10⟩,
   ⟨"lg", exactly 1, .log10⟩,
   ⟨"log2", exactly 1, .log2⟩,
   ⟨"lb", exactly 1, .log2⟩,
   ⟨"ld", exactly 1, .log2⟩,
   ⟨"cosh", exactly 1, .cosh⟩,
   ⟨"sinh", exactly 1, .sinh⟩]

end Builtin

/-- A call of a builtin: its name, its arguments and where it stands. -/
structure BuiltinCall where
  name : String
  args : List Value
  span : Span

namespace BuiltinCall

/-- An argument; one that is missing is undefined. -/
def arg (call : BuiltinCall) (place : Nat) : Value := call.args.getD place .undefined

/-- An argument that has to be a number. -/
def number (call : BuiltinCall) (place : Nat) : Eval Float :=
  match call.arg place with
  | .number x => pure x
  | other => fault (.argumentType call.name [.number] other.type) call.span

/-- An argument that has to be a coordinate pair or have a position. -/
def point (call : BuiltinCall) (place : Nat) : Eval (Float × Float) := do
  let value := call.arg place
  match (← get).heap.pair? value with
  | some pair => return pair
  | none => fault (.argumentType call.name [.array, .element] value.type) call.span

/-- Calls a method of the argument, which has to be a host object. -/
def delegate (call : BuiltinCall) (method : String) : Eval Value :=
  match call.arg 0 with
  | .host ref => askHost (fun heap => heap.callMethod ref method []) .host call.span
  | other => fault (.argumentType call.name [.element] other.type) call.span

/-- The angle at the second of three points, between zero and a full turn. -/
def angle (call : BuiltinCall) : Eval Float := do
  let (ax, ay) ← call.point 0
  let (bx, by') ← call.point 1
  let (cx, cy) ← call.point 2
  let phi := Float.atan2 (cy - by') (cx - bx) - Float.atan2 (ay - by') (ax - bx)
  return if phi < 0.0 then phi + 2.0 * 3.141592653589793 else phi

/-- The product of the integers from two to `n`. From 171 on it is beyond
every number. -/
def factorial (n : Nat) : Float :=
  (List.range (min n 171 - 1)).foldl (fun product k => product * (k + 2).toFloat) 1.0

/-- A number as an integer of 32 bits, one beyond their range as the
nearest of them. -/
def toInteger32 (x : Float) : Int :=
  if x.isNaN then 0
  else if x >= 2147483647.0 then 2147483647
  else if x <= -2147483648.0 then -2147483648
  else if x < 0.0 then -((-x).toUInt64.toNat : Int)
  else (x.toUInt64.toNat : Int)

/-- A number cut off behind so many digits. -/
def truncate (x digits : Float) : Float :=
  let scale := Numeric.wholePower 10.0 (toInteger32 (Numeric.towardZero digits))
  Numeric.towardZero (x * scale) / scale

/-- A function of one number. -/
def numeric (call : BuiltinCall) (f : Float → Float) : Eval Value := do
  return .number (f (← call.number 0))

/-- Does what a builtin does. -/
def perform (call : BuiltinCall) : BuiltinAction → Eval Value
  | .log => do
      let heap := (← get).heap
      writeLine (" ".intercalate (call.args.map heap.text)) call.span
      return .undefined
  | .select => do
      let m ← get
      return (m.host.select m.heap (m.heap.text (call.arg 0))).getD .undefined
  | .remove => do
      match call.arg 0 with
      | .host ref => updateHeap (·.remove ref)
      | _ => pure ()
      return .undefined
  | .ifThen => return if (call.arg 0).truthy then call.arg 1 else call.arg 2
  | .value => call.delegate "Value"
  | .length => call.delegate "L"
  | .dist => do
      let (ax, ay) ← call.point 0
      let (bx, by') ← call.point 1
      return .number (Numeric.hypot (ax - bx) (ay - by'))
  | .rad => return .number (← call.angle)
  | .deg => return .number ((← call.angle) * 180.0 / 3.141592653589793)
  | .factorial => do
      let n ← call.number 0
      return .number (if n < 0.0 then Numeric.nan else factorial n.floor.toUInt64.toNat)
  | .trunc => do
      let x ← call.number 0
      let digits ← if call.args.length = 2 then call.number 1 else pure 0.0
      return .number (truncate x digits)
  | .logarithm => do
      let x ← call.number 0
      if call.args.length = 2 then return .number (x.log / (← call.number 1).log)
      else return .number x.log
  | .ln => call.numeric Float.log
  | .log10 => call.numeric Float.log10
  | .log2 => call.numeric Float.log2
  | .cosh => call.numeric Float.cosh
  | .sinh => call.numeric Float.sinh
  | .fail => do fault (.builtinFailed call.name (← textOf (call.arg 0))) call.span
  | .cancel => do
      modify fun m => { m with cancelled := true }
      return .undefined
  | .count => return .number call.args.length.toFloat

end BuiltinCall

/-- Calls a builtin with the right number of arguments. -/
def Builtin.call (b : Builtin) (args : List Value) (span : Span) : Eval Value :=
  if b.arity.admits args.length then BuiltinCall.perform ⟨b.name, args, span⟩ b.action
  else fault (.arity b.name b.arity.text args.length) span

end BoardScript
