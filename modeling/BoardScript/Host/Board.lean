/-
Boards and what creates elements on them. A host is a list of boards, each
of which is a session; a session that no board answers to has no creators.
A creator checks what it is given before anything is added, so a failure
leaves the board as it was.
-/
import BoardScript.Host.Object
import BoardScript.Text.Lowercase

namespace BoardScript

namespace Heap

/-- The identifier of the next element of a board: the number of elements
ever made there, counted from one. -/
def nextId (h : Heap) (board : Nat) : String :=
  let b := h.boards.getD board default
  b.name ++ "_el" ++ toString (b.elements.size + 1)

/-- An element that a creator makes, and the label that comes with it. -/
structure Blueprint where
  element : Element
  label : Option Element := none

/-- A point from two numbers or from a coordinate pair. Its label carries
its name. -/
def makePoint (h : Heap) (id name : String) (parents : List Value) :
    Except HostError Blueprint :=
  let position := match parents with
    | [.number x, .number y] => some (x, y)
    | [pair] => h.pair? pair
    | _ => none
  match position with
  | some (x, y) => .ok {
      element := { id, kind := .point, name, x, y }
      label := some { id := id ++ "_label", kind := .text, name := name ++ "_label", x, y,
                      text := name } }
  | none => .error .pointParents

/-- A segment between two host objects that have a position. -/
def makeSegment (h : Heap) (id name : String) (parents : List Value) :
    Except HostError Blueprint :=
  match parents with
  | [.host a, .host b] =>
      if (h.coordinate a .x).isSome && (h.coordinate b .x).isSome then
        .ok { element := { id, kind := .segment, name, endpoints := [a, b] } }
      else .error .segmentParents
  | _ => .error .segmentParents

/-- A text from its position and its content. -/
def makeText (h : Heap) (id name : String) (parents : List Value) :
    Except HostError Blueprint :=
  match parents with
  | [x, y, content] =>
      match x, y with
      | .number x, .number y =>
          .ok { element := { id, kind := .text, name, x, y, text := h.text content } }
      | _, _ => .error .textCoordinates
  | _ => .error .textParents

/-- A slider from two anchors and its range `[min, start, max]`. It sits
at its first anchor. -/
def makeSlider (h : Heap) (id name : String) (parents : List Value) :
    Except HostError Blueprint :=
  match parents with
  | [anchor, _, .array range] =>
      match h.pair? anchor, (h.array range).toList with
      | some (x, y), [.number least, .number start, .number most] =>
          if least <= most then
            let slider : Element := { id, kind := .slider, name, x, y, least, most }
            .ok { element := { slider with value := slider.clamp start } }
          else .error .sliderParents
      | _, _ => .error .sliderParents
  | _ => .error .sliderParents

/-- The names of the creators of a board. -/
def creatorNames : List String := ["point", "segment", "text", "slider"]

def make (h : Heap) (kind id name : String) (parents : List Value) : Except HostError Blueprint :=
  match kind with
  | "point" => h.makePoint id name parents
  | "segment" => h.makeSegment id name parents
  | "text" => h.makeText id name parents
  | "slider" => h.makeSlider id name parents
  | _ => .error (.noCreator kind)

/-- The attributes of a new element: all but its name, under names in
lower case. -/
def attributeBag (attributes : Fields) : Fields :=
  attributes.foldl (fun bag (key, value) =>
    if key = "name" then bag else Fields.insert (lowercase key) value bag) []

/-- Adds what a creator made to a board. -/
def addElement (h : Heap) (board : Nat) (made : Blueprint) (attributes : Fields) : Value × Heap :=
  let (label, h) := match made.label with
    | none => (none, h)
    | some label =>
        let (index, h) := h.newElement label
        (some (HostRef.element index), h)
  let (index, h) := h.newElement { made.element with label, attributes := attributeBag attributes }
  (.host (.element index),
   { h with boards := h.boards.modify board fun b => { b with elements := b.elements.push index } })

/-- Creates an element on a board. Its name is the attribute `name` if
that is a string, else its identifier. -/
def create (h : Heap) (board : Nat) (kind : String) (parents : List Value) (attributes : Fields) :
    Except HostError (Value × Heap) := do
  let id := h.nextId board
  let name := match attributes.get? "name" with
    | some (.string name) => name
    | _ => id
  let made ← h.make kind id name parents
  return h.addElement board made attributes

end Heap

-- =================================================================== host

/-- The boards that programs work on, by session. -/
structure Host where
  boards : List Nat := []
deriving Repr, DecidableEq, Inhabited

namespace Host

/-- Whether a session has a creator. -/
def has (host : Host) (session : Nat) (name : String) : Bool :=
  session < host.boards.length && Heap.creatorNames.contains name

/-- Creates an element in a session. -/
def invoke (host : Host) (h : Heap) (session : Nat) (name : String) (parents : List Value)
    (attributes : Fields) : Except HostError (Value × Heap) :=
  match host.boards[session]? with
  | some board => h.create board name parents attributes
  | none => .error (if host.boards.isEmpty then .noCreator name else .unknownSession session)

/-- The session of the board with a name. -/
def selectSession (host : Host) (h : Heap) (name : String) : Option Nat :=
  host.boards.findIdx? fun board => h.hostName (.board board) == name

/-- The board of a session as a value. -/
def sessionObject (host : Host) (session : Nat) : Option Value :=
  host.boards[session]?.map fun board => .host (.board board)

/-- The youngest live element with an identifier or name, on the first
board that has one. -/
def select (host : Host) (h : Heap) (name : String) : Option Value :=
  host.boards.findSome? fun board => h.select board name

end Host

-- ========================================================= creator cache

/-- Creators already handed out, by session and name. -/
structure CreatorCache where
  handles : List Creator := []
  next : Nat := 0
deriving Inhabited

namespace CreatorCache

/-- The creator for a session and a name, made if there is none yet. -/
def get (cache : CreatorCache) (session : Nat) (name : String) : Creator × CreatorCache :=
  match cache.handles.find? fun c => c.session == session && c.name == name with
  | some c => (c, cache)
  | none =>
      let c := ⟨session, name, cache.next⟩
      (c, ⟨c :: cache.handles, cache.next + 1⟩)

def size (cache : CreatorCache) : Nat := cache.handles.length

def clear (cache : CreatorCache) : CreatorCache := { cache with handles := [] }

def clearSession (cache : CreatorCache) (session : Nat) : CreatorCache :=
  { cache with handles := cache.handles.filter (·.session != session) }

end CreatorCache

end BoardScript
