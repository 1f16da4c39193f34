/-
Values of the language. Numbers, strings and booleans stand for
themselves. Arrays and objects are shared and can change, so a value of
those types is a place on the heap; what a host owns is named by a
reference. A closure carries all that is fixed about it, and an identity.

Builtins, creators and mathematical functions are values only while a call
of one is under way.
-/
import BoardScript.Code.Chunk
import BoardScript.Host.Math

namespace BoardScript

/-- A place of an array on the heap. -/
structure ArrayId where
  index : Nat
deriving Repr, DecidableEq, Inhabited

/-- A place of an object on the heap. -/
structure ObjectId where
  index : Nat
deriving Repr, DecidableEq, Inhabited

/-- A number of a scope; the global scope is zero. -/
abbrev ScopeId := Nat

/-- Something a host owns: an element, a board, or a thing of which only
an identifier and a name are known. -/
inductive HostRef where
  | element (index : Nat)
  | board (index : Nat)
  | inert (id : String) (name : String)
deriving Repr, DecidableEq, Inhabited

/-- The right to create elements of one kind in one session. Two are equal
if session and name are; the identity tells one that was made anew. -/
structure Creator where
  session : Nat
  name : String
  identity : Nat
deriving Repr, Inhabited

def Creator.same (a b : Creator) : Bool := a.session == b.session && a.name == b.name

/-- What a builtin does. -/
inductive BuiltinAction where
  | log
  | select
  | remove
  | ifThen
  | value
  | length
  | dist
  | rad
  | deg
  | factorial
  | trunc
  | logarithm
  | ln
  | log10
  | log2
  | cosh
  | sinh
  /-- fails with the text of its argument -/
  | fail
  /-- asks the run to stop -/
  | cancel
  /-- gives the number of its arguments -/
  | count
deriving Repr, DecidableEq, Inhabited

/-- How many arguments a builtin takes; without a most, any number. -/
structure Arity where
  least : Nat
  most : Option Nat
deriving Repr, DecidableEq, Inhabited

namespace Arity

def admits (a : Arity) (n : Nat) : Bool :=
  a.least ≤ n && match a.most with
    | some most => n ≤ most
    | none => true

def text (a : Arity) : String :=
  match a.most with
  | none => s!"at least {a.least}"
  | some most => if a.least = most then toString most else s!"{a.least} to {most}"

end Arity

/-- A builtin function under the name it is called by. -/
structure Builtin where
  name : String
  arity : Arity
  action : BuiltinAction
deriving Repr, DecidableEq, Inhabited

/-- A function of the program: its literal, the scope it was made in, the
host objects its body names, its code if it was compiled, and the text it
comes from. -/
structure Closure where
  identity : Nat
  literal : FunctionLiteral
  scope : ScopeId
  dependencies : List HostRef
  compiled : Option Chunk
  source : Source

instance : Inhabited Closure := ⟨⟨0, default, 0, [], none, default⟩⟩

def Closure.params (c : Closure) : List String := c.literal.params.map Name.text

/-- A value. -/
inductive Value where
  | number (x : Float)
  | string (text : String)
  | boolean (b : Bool)
  | array (place : ArrayId)
  | object (place : ObjectId)
  | closure (c : Closure)
  | builtin (b : Builtin)
  | creator (c : Creator)
  | math (f : MathFunction)
  /-- a method with the host object it was read from -/
  | method (receiver : HostRef) (name : String)
  | host (ref : HostRef)
  | undefined

instance : Inhabited Value := ⟨.undefined⟩

/-- The type of a value as messages name it. -/
inductive ValueType where
  | number
  | string
  | boolean
  | array
  | object
  | function
  | element
  | undefined
deriving Repr, DecidableEq, Inhabited

namespace ValueType

def text : ValueType → String
  | number => "number"
  | string => "string"
  | boolean => "boolean"
  | array => "array"
  | object => "object"
  | function => "function"
  | element => "element"
  | undefined => "undefined"

/-- The type with an article. -/
def withArticle : ValueType → String
  | number => "a number"
  | string => "a string"
  | boolean => "a boolean"
  | array => "an array"
  | object => "an object"
  | function => "a function"
  | element => "an element"
  | undefined => "undefined"

/-- Several types to choose from. -/
def anyOf (types : List ValueType) : String := " or ".intercalate (types.map withArticle)

end ValueType

namespace Value

def type : Value → ValueType
  | number _ => .number
  | string _ => .string
  | boolean _ => .boolean
  | array _ => .array
  | object _ => .object
  | closure _ | builtin _ | creator _ | math _ | method .. => .function
  | host _ => .element
  | undefined => .undefined

def isCallable (v : Value) : Bool := v.type == .function

/-- Whether a condition holds. Zero, no number, the empty string, false
and undefined do not. -/
def truthy : Value → Bool
  | boolean b => b
  | number x => !(x == 0.0 || x.isNaN)
  | string text => !text.isEmpty
  | undefined => false
  | _ => true

def number? : Value → Option Float
  | number x => some x
  | _ => none

/-- Whether two values are the same: equal numbers, strings and booleans,
and one and the same array, object, closure or host object. -/
def same : Value → Value → Bool
  | number a, number b => a == b
  | string a, string b => a == b
  | boolean a, boolean b => a == b
  | array a, array b => a == b
  | object a, object b => a == b
  | closure a, closure b => a.identity == b.identity
  | builtin a, builtin b => a == b
  | creator a, creator b => a.same b
  | math a, math b => a == b
  | method a m, method b n => a == b && m == n
  | host a, host b => a == b
  | undefined, undefined => true
  | _, _ => false

end Value

-- ================================================================= fields

/-- Values under names, sorted by name, each name once. -/
abbrev Fields := List (String × Value)

namespace Fields

def get? (fields : Fields) (name : String) : Option Value := fields.lookup name

/-- Puts a value under a name, in place of any that stood there. -/
def insert (name : String) (value : Value) : Fields → Fields
  | [] => [(name, value)]
  | (other, old) :: rest =>
      if name = other then (name, value) :: rest
      else if name < other then (name, value) :: (other, old) :: rest
      else (other, old) :: insert name value rest

/-- The fields of a list of pairs, of which the last of a name counts. -/
def ofPairs (pairs : List (String × Value)) : Fields :=
  pairs.foldl (fun fields (name, value) => insert name value fields) []

end Fields

end BoardScript
