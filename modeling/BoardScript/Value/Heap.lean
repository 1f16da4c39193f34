/-
The heap holds what can change and is shared: arrays, objects, the
elements of boards, and the boards. Nothing is ever taken off it, so a
place once handed out stays good.

The text of a value is defined here too, since for arrays, objects and
host objects it depends on what the heap holds.
-/
import BoardScript.Program.Surface
import BoardScript.Value.Basic

namespace BoardScript

-- =========================================================== host objects

/-- The kinds of element a board can hold. -/
inductive ElementKind where
  | point
  | segment
  | text
  | slider
deriving Repr, DecidableEq, Inhabited

def ElementKind.name : ElementKind → String
  | .point => "point"
  | .segment => "segment"
  | .text => "text"
  | .slider => "slider"

/-- An element of a board. Which fields matter depends on its kind: a
segment has end points and no position, a slider a value within bounds, a
point a label. -/
structure Element where
  id : String
  kind : ElementKind
  name : String
  x : Float := 0.0
  y : Float := 0.0
  endpoints : List HostRef := []
  text : String := ""
  label : Option HostRef := none
  least : Float := 0.0
  most : Float := 0.0
  value : Float := 0.0
  attributes : Fields := []
  removed : Bool := false

instance : Inhabited Element := ⟨{ id := "", kind := .point, name := "" }⟩

/-- A board: its name and its elements by their place on the heap, in the
order of their creation, removed ones included. -/
structure Board where
  name : String
  elements : Array Nat := #[]

instance : Inhabited Board := ⟨{ name := "" }⟩

-- =================================================================== heap

/-- All that is shared and can change. -/
structure Heap where
  arrays : Array (Array Value) := #[]
  objects : Array Fields := #[]
  elements : Array Element := #[]
  boards : Array Board := #[]

instance : Inhabited Heap := ⟨{}⟩

namespace Heap

def array (h : Heap) (place : ArrayId) : Array Value := h.arrays.getD place.index #[]

def object (h : Heap) (place : ObjectId) : Fields := h.objects.getD place.index []

/-- Puts a new array on the heap. -/
def newArray (h : Heap) (items : Array Value) : Value × Heap :=
  (.array ⟨h.arrays.size⟩, { h with arrays := h.arrays.push items })

/-- Puts a new object on the heap. -/
def newObject (h : Heap) (fields : Fields) : Value × Heap :=
  (.object ⟨h.objects.size⟩, { h with objects := h.objects.push fields })

/-- Puts a new element on the heap, on no board yet. -/
def newElement (h : Heap) (element : Element) : Nat × Heap :=
  (h.elements.size, { h with elements := h.elements.push element })

/-- Puts a new board on the heap. -/
def newBoard (h : Heap) (name : String) : Nat × Heap :=
  (h.boards.size, { h with boards := h.boards.push { name } })

/-- How long an array may become by writing to it. -/
def arrayLimit : Nat := twoTo 24

/-- Writes to an array, filling it up with undefined as far as needed. -/
def setItem (h : Heap) (place : ArrayId) (index : Nat) (value : Value) : Heap :=
  { h with arrays := h.arrays.modify place.index fun items =>
      if index < items.size then items.setIfInBounds index value
      else (items ++ Array.replicate (index - items.size) Value.undefined).push value }

def setField (h : Heap) (place : ObjectId) (name : String) (value : Value) : Heap :=
  { h with objects := h.objects.modify place.index (Fields.insert name value) }

def modifyElement (h : Heap) (index : Nat) (change : Element → Element) : Heap :=
  { h with elements := h.elements.modify index change }

/-- The name of a host object. -/
def hostName (h : Heap) : HostRef → String
  | .element index => (h.elements[index]?.map (·.name)).getD ""
  | .board index => (h.boards[index]?.map (·.name)).getD ""
  | .inert _ name => name

/-- The identifier of a host object. -/
def hostId (h : Heap) : HostRef → String
  | .element index => (h.elements[index]?.map (·.id)).getD ""
  | .board index => (h.boards[index]?.map (·.name)).getD ""
  | .inert id _ => id

-- ========================================================= text of values

/-- A string between single quotes, quotes inside doubled. -/
def quoteString (text : String) : String :=
  "'" ++ String.ofList (text.toList.flatMap fun c => if c = '\x27' then [c, c] else [c]) ++ "'"

/-- The text of a value, strings quoted or not; what stands inside an
array or an object is always quoted. Arrays and objects are followed to a
depth of `fuel`. -/
def render (h : Heap) : (fuel : Nat) → (quoted : Bool) → Value → String
  | _, _, .number x => Decimal.Style.language.write x
  | _, true, .string text => quoteString text
  | _, false, .string text => text
  | _, _, .boolean b => if b then "true" else "false"
  | 0, _, .array _ => ""
  | fuel + 1, _, .array place =>
      "[" ++ ", ".intercalate ((h.array place).toList.map (h.render fuel true)) ++ "]"
  | 0, _, .object _ => ""
  | fuel + 1, _, .object place =>
      match h.object place with
      | [] => "<< >>"
      | fields => "<< " ++ ", ".intercalate (fields.map fun (name, value) =>
          name ++ ": " ++ h.render fuel true value) ++ " >>"
  | _, _, .closure c => Surface.literal c.literal.params c.literal.body c.literal.isMap
  | _, _, .builtin b => "function " ++ b.name ++ "() \x7b <native code> \x7d"
  | _, _, .creator c => "<creator " ++ c.name ++ ">"
  | _, _, .math f => "<math " ++ f.name ++ ">"
  | _, _, .method receiver name => "<method " ++ h.hostName receiver ++ "." ++ name ++ ">"
  | _, _, .host ref => h.hostName ref
  | _, _, .undefined => "undefined"

/-- A depth that no array or object exceeds unless it holds itself. -/
def depth (h : Heap) : Nat := h.arrays.size + h.objects.size + 1

/-- The text of a value. -/
def text (h : Heap) (v : Value) : String := h.render h.depth false v

/-- The text of a value with strings quoted. -/
def debug (h : Heap) (v : Value) : String := h.render h.depth true v

end Heap

end BoardScript
