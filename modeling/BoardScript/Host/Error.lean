/-
What a board refuses to do, and why.
-/

namespace BoardScript

/-- Why a host operation failed. -/
inductive HostError where
  | noCreator (name : String)
  | unknownSession (session : Nat)
  | pointParents
  | segmentParents
  | textParents
  | textCoordinates
  | sliderParents
  | noLength (owner : String)
  | valueNotNumber (owner : String)
  | coordinateNotNumber (owner : String)
  | distanceArgument
  | moveArgument
  | noMethod (owner : String) (method : String)
  | noElement (owner : String) (index : Nat)
  | boardProperty (property : String) (board : String)
deriving Repr, DecidableEq

def HostError.message : HostError → String
  | .noCreator name => s!"no creator named {name}"
  | .unknownSession session => s!"unknown board session {session}"
  | .pointParents => "point needs two numeric parents"
  | .segmentParents => "segment needs two points as parents"
  | .textParents => "text needs x, y and a content"
  | .textCoordinates => "text needs numeric coordinates"
  | .sliderParents => "slider needs two anchors and [min, start, max]"
  | .noLength owner => s!"{owner} has no length"
  | .valueNotNumber owner => s!"value of {owner} must be a number"
  | .coordinateNotNumber owner => s!"coordinate of {owner} must be a number"
  | .distanceArgument => "Dist needs a point or a coordinate pair"
  | .moveArgument => "moveTo needs a coordinate pair"
  | .noMethod owner method => s!"{owner} has no method {method}"
  | .noElement owner index => s!"{owner} has no element {index}"
  | .boardProperty property board => s!"cannot set {property} of board {board}"

end BoardScript
