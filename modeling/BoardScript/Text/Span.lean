/-
Where things stand in a text. Offsets and lengths count UTF-8 bytes, so a
span can be cut out of the text without decoding it; a position counts
lines and characters from one and is what a person reads.
-/

namespace BoardScript

/-- A run of bytes: the offset of its first byte and how many there are. -/
structure Span where
  start : Nat
  length : Nat
deriving Repr, DecidableEq, Inhabited

namespace Span

/-- The offset just past the last byte. -/
def stop (s : Span) : Nat := s.start + s.length

def isEmpty (s : Span) : Bool := s.length == 0

/-- The empty span in front of `offset`. -/
def before (offset : Nat) : Span := ⟨offset, 0⟩

/-- The one byte at `offset`. -/
def single (offset : Nat) : Span := ⟨offset, 1⟩

/-- From `start` up to, not including, `stop`; empty when they are out of
order. -/
def between (start stop : Nat) : Span := ⟨start, stop - start⟩

/-- From the byte `first` to the byte `last`, both included, for callers that
have a range of bytes; no pass over a program makes its spans so. There is no
such span when they are out of order. -/
def through? (first last : Nat) : Option Span :=
  if first ≤ last then some ⟨first, last - first + 1⟩ else none

/-- The smallest span that holds both. -/
def cover (a b : Span) : Span :=
  between (min a.start b.start) (max a.stop b.stop)

/-- The smallest span that holds every member of a list, if there is one. -/
def coverAll : List Span → Option Span
  | [] => none
  | s :: rest => some (rest.foldl cover s)

end Span

/-- A line and a column, both counted from one; columns count characters. -/
structure Position where
  line : Nat
  column : Nat
deriving Repr, DecidableEq, Inhabited

/-- The written form of a position, as in `l3c14`. -/
def Position.render (p : Position) : String := s!"l{p.line}c{p.column}"

end BoardScript
