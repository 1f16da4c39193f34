/-
A text together with the offsets at which its lines begin. The index is
built once; finding the line of an offset is then a binary search, and a
column is a count of characters from the line's start.
-/
import BoardScript.Text.Span

namespace BoardScript

-- ================================================== bytes and characters

/-- How many characters make up exactly the first `bytes` bytes; `none`
when that many bytes end inside a character or past the text. -/
def charsIn : List Char → Nat → Option Nat
  | _, 0 => some 0
  | [], _ + 1 => none
  | c :: rest, bytes =>
      if c.utf8Size ≤ bytes then (charsIn rest (bytes - c.utf8Size)).map (· + 1)
      else none

/-- The characters from the first boundary at or past `bytes` on. -/
def dropBytes : List Char → Nat → List Char
  | cs, 0 => cs
  | [], _ => []
  | c :: rest, bytes => dropBytes rest (bytes - c.utf8Size)

-- ============================================================ line index

/-- The offsets at which lines begin, in increasing order, the first one
being zero. -/
structure LineIndex where
  starts : Array Nat
deriving Repr, Inhabited

namespace LineIndex

/-- The offsets just past each newline of `cs`, which stands at `offset`. -/
def afterNewlines : List Char → Nat → List Nat
  | [], _ => []
  | c :: rest, offset =>
      let next := offset + c.utf8Size
      if c = '\n' then next :: afterNewlines rest next else afterNewlines rest next

def ofChars (cs : List Char) : LineIndex := ⟨(0 :: afterNewlines cs 0).toArray⟩

/-- Binary search between `lo` and `hi` for the first line start beyond
`offset`: every start before `lo` is at most `offset`, every one from `hi`
on is beyond it. -/
def firstBeyond (starts : Array Nat) (offset lo hi : Nat) : Nat :=
  if lo < hi then
    let mid := (lo + hi) / 2
    if starts.getD mid 0 ≤ offset then firstBeyond starts offset (mid + 1) hi
    else firstBeyond starts offset lo mid
  else lo
termination_by hi - lo

/-- The line, counted from one, that holds the byte at `offset`. Offsets
past the end are on the last line. -/
def lineOf (index : LineIndex) (offset : Nat) : Nat :=
  firstBeyond index.starts offset 0 index.starts.size

/-- The offset at which a line begins. -/
def startOf (index : LineIndex) (line : Nat) : Nat := index.starts.getD (line - 1) 0

end LineIndex

-- ================================================================ source

/-- A program text with its line index. -/
structure Source where
  text : String
  lines : LineIndex := LineIndex.ofChars text.toList
  lines_eq : lines = LineIndex.ofChars text.toList := by rfl

namespace Source

/-- A text and the index of its lines. -/
def ofText (text : String) : Source := { text }

instance : Inhabited Source := ⟨ofText ""⟩

def lineOf (source : Source) (offset : Nat) : Nat := source.lines.lineOf offset

/-- The position of a byte offset. An offset past the end counts as the
end; one inside a character falls back to counting bytes. -/
def position (source : Source) (offset : Nat) : Position :=
  let line := source.lineOf offset
  let lineStart := source.lines.startOf line
  let width := min offset source.text.utf8ByteSize - lineStart
  let column := (charsIn (dropBytes source.text.toList lineStart) width).getD width
  ⟨line, column + 1⟩

end Source

end BoardScript
