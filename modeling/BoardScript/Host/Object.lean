/-
What can be done with a host object: reading and writing its properties,
calling its methods, asking for its position, removing it. Elements answer
by their kind; a board answers as a whole; an inert thing has nothing to
offer.

Names of attributes are in lower case, those of methods and sub-objects
are not.
-/
import BoardScript.Host.Error
import BoardScript.Value.Heap

namespace BoardScript

namespace Element

/-- Whether an element has a position of its own. -/
def hasPosition (e : Element) : Bool := e.kind != .segment

def coordinate (e : Element) : Axis → Float
  | .x => e.x
  | .y => e.y

/-- The element moved along an axis. -/
def withCoordinate (e : Element) (axis : Axis) (value : Float) : Element :=
  match axis with
  | .x => { e with x := value }
  | .y => { e with y := value }

/-- A number brought within a slider's bounds. -/
def clamp (e : Element) (value : Float) : Float :=
  Numeric.smaller (Numeric.larger value e.least) e.most

/-- The method that a property of an element stands for. -/
def methodAlias (e : Element) (name : String) : Option String :=
  match e.kind, name with
  | .point, "X" | .text, "X" => some "X"
  | .point, "Y" | .text, "Y" => some "Y"
  | .point, "Dist" | .point, "distance" => some "Dist"
  | .point, "moveTo" | .point, "setPosition" => some "moveTo"
  | .segment, "L" | .segment, "length" => some "L"
  | .text, "setText" => some "setText"
  | .slider, "Value" | .slider, "V" => some "Value"
  | .slider, "setValue" => some "setValue"
  | _, _ => none

def attribute? (e : Element) (name : String) : Option Value :=
  match name with
  | "id" => some (.string e.id)
  | "name" => some (.string e.name)
  | "type" => some (.string e.kind.name)
  | "x" => if e.hasPosition then some (.number e.x) else e.attributes.get? name
  | "y" => if e.hasPosition then some (.number e.y) else e.attributes.get? name
  | "text" => if e.kind = .text then some (.string e.text) else e.attributes.get? name
  | "value" => if e.kind = .slider then some (.number e.value) else e.attributes.get? name
  | _ => e.attributes.get? name

/-- The element with a coordinate set from a value. -/
def setCoordinate (e : Element) (axis : Axis) (value : Value) : Except HostError Element :=
  match value with
  | .number x => .ok (e.withCoordinate axis x)
  | _ => .error (.coordinateNotNumber e.name)

/-- A slider with its value set. -/
def setValue (e : Element) (value : Value) : Except HostError Element :=
  match value with
  | .number x => .ok { e with value := e.clamp x }
  | _ => .error (.valueNotNumber e.name)

/-- The element with a property set; `text` is the text of the value. -/
def setProperty (e : Element) (name : String) (value : Value) (text : String) :
    Except HostError Element :=
  let asAttribute := { e with attributes := Fields.insert name value e.attributes }
  match name with
  | "x" => if e.hasPosition then e.setCoordinate .x value else .ok asAttribute
  | "y" => if e.hasPosition then e.setCoordinate .y value else .ok asAttribute
  | "name" => .ok { e with name := text }
  | "text" => .ok (if e.kind = .text then { e with text := text } else asAttribute)
  | "value" => if e.kind = .slider then e.setValue value else .ok asAttribute
  | _ => .ok asAttribute

end Element

/-- The axis that a place in a coordinate pair belongs to. -/
def Axis.ofPlace? : Nat → Option Axis
  | 0 => some .x
  | 1 => some .y
  | _ => none

def Axis.place : Axis → Nat
  | .x => 0
  | .y => 1

namespace Heap

/-- The elements of a board that have not been removed, oldest first. -/
def liveElements (h : Heap) (board : Nat) : List (Nat × Element) :=
  (h.boards.getD board default).elements.toList.filterMap fun index =>
    match h.elements[index]? with
    | some element => if element.removed then none else some (index, element)
    | none => none

/-- The youngest live element of a board with an identifier or name. -/
def select (h : Heap) (board : Nat) (name : String) : Option Value :=
  ((h.liveElements board).reverse.find? fun (_, e) => e.id == name || e.name == name).map
    fun (index, _) => .host (.element index)

/-- The position of a host object along an axis, if it has one. -/
def coordinate (h : Heap) (ref : HostRef) (axis : Axis) : Option Float :=
  match ref with
  | .element index => h.elements[index]?.bind fun e =>
      if e.hasPosition then some (e.coordinate axis) else none
  | _ => none

/-- A coordinate pair: the position of a host object or the first two
items of an array. -/
def pair? (h : Heap) : Value → Option (Float × Float)
  | .host ref => do return (← h.coordinate ref .x, ← h.coordinate ref .y)
  | .array place => do
      let items := h.array place
      return (← (← items[0]?).number?, ← (← items[1]?).number?)
  | _ => none

/-- A host object that belongs to another. -/
def subObject (h : Heap) (ref : HostRef) (name : String) : Option Value :=
  match ref, name with
  | .element index, "label" => (h.elements[index]?.bind (·.label)).map .host
  | _, _ => none

/-- The method that a property stands for. -/
def methodAlias (h : Heap) (ref : HostRef) (name : String) : Option String :=
  match ref with
  | .element index => h.elements[index]?.bind (·.methodAlias name)
  | .board _ => if name = "select" then some name else none
  | .inert .. => none

/-- The distance between the ends of a segment. -/
def segmentLength (h : Heap) (e : Element) : Except HostError Float :=
  match e.endpoints with
  | [a, b] =>
      let nowhere := (Numeric.nan, Numeric.nan)
      let (ax, ay) := (h.pair? (.host a)).getD nowhere
      let (bx, by') := (h.pair? (.host b)).getD nowhere
      .ok (Numeric.hypot (ax - bx) (ay - by'))
  | _ => .error (.noLength e.name)

/-- Calls a method of an element. -/
def callElement (h : Heap) (index : Nat) (e : Element) (method : String) (args : List Value) :
    Except HostError (Value × Heap) :=
  let unknown := .error (.noMethod e.name method)
  match method with
  | "X" => .ok (.number e.x, h)
  | "Y" => .ok (.number e.y, h)
  | "Dist" =>
      match args.head?.bind h.pair? with
      | some (x, y) => .ok (.number (Numeric.hypot (e.x - x) (e.y - y)), h)
      | none => .error .distanceArgument
  | "moveTo" =>
      match args.head?.bind h.pair? with
      | some (x, y) => .ok (.undefined, h.modifyElement index fun e => { e with x, y })
      | none => .error .moveArgument
  | "L" => do return (.number (← h.segmentLength e), h)
  | "Value" => if e.kind = .slider then .ok (.number e.value, h) else unknown
  | "setValue" =>
      if e.kind = .slider then do
        let changed ← e.setValue (args.headD .undefined)
        return (.undefined, h.modifyElement index fun _ => changed)
      else unknown
  | "setText" =>
      let text := (args.head?.map h.text).getD ""
      .ok (.undefined, h.modifyElement index fun e => { e with text })
  | _ => unknown

/-- Calls a method of a host object. -/
def callMethod (h : Heap) (ref : HostRef) (method : String) (args : List Value) :
    Except HostError (Value × Heap) :=
  match ref with
  | .element index =>
      match h.elements[index]? with
      | some e => h.callElement index e method args
      | none => .error (.noMethod "" method)
  | .board board =>
      if method = "select" then
        let name := (args.head?.map h.text).getD ""
        .ok ((h.select board name).getD .undefined, h)
      else .error (.noMethod (h.hostName ref) method)
  | .inert _ name => .error (.noMethod name method)

/-- An attribute of a host object; the name is in lower case. -/
def attribute? (h : Heap) (ref : HostRef) (name : String) : Option Value :=
  match ref with
  | .element index => h.elements[index]?.bind (·.attribute? name)
  | .board board =>
      match name with
      | "id" | "name" => some (.string (h.hostName ref))
      | "type" => some (.string "board")
      | "numobjects" => some (.number (h.liveElements board).length.toFloat)
      | _ => none
  | .inert .. => none

/-- Sets a property of a host object; the name is in lower case. -/
def setProperty (h : Heap) (ref : HostRef) (name : String) (value : Value) :
    Except HostError Heap :=
  match ref with
  | .element index =>
      match h.elements[index]? with
      | some e => do
          let changed ← e.setProperty name value (h.text value)
          return h.modifyElement index fun _ => changed
      | none => .ok h
  | .board _ => .error (.boardProperty name (h.hostName ref))
  | .inert .. => .ok h

/-- Whether a property cannot be assigned; the name is in lower case. -/
def isReadOnly (ref : HostRef) (name : String) : Bool :=
  match ref with
  | .element _ => name = "id" || name = "type" || name = "label"
  | .board _ => true
  | .inert .. => false

/-- A host object read by place: the coordinates of what has a position. -/
def itemOf (h : Heap) (ref : HostRef) (index : Nat) : Option Value := do
  let axis ← Axis.ofPlace? index
  return .number (← h.coordinate ref axis)

/-- A host object written to by place. -/
def setItemOf (h : Heap) (ref : HostRef) (place : Nat) (value : Value) : Except HostError Heap :=
  let refused := .error (.noElement (h.hostName ref) place)
  match ref, Axis.ofPlace? place with
  | .element index, some axis =>
      match h.elements[index]? with
      | some e =>
          if e.hasPosition then do
            let changed ← e.setCoordinate axis value
            return h.modifyElement index fun _ => changed
          else refused
      | none => refused
  | _, _ => refused

/-- Removes a host object from its board. Boards stay. -/
def remove (h : Heap) : HostRef → Heap
  | .element index => h.modifyElement index fun e => { e with removed := true }
  | _ => h

end Heap

end BoardScript
