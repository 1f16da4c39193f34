/-
Whole-line comments. A line whose first visible characters are `//` is
blanked before anything else looks at the text: every byte of it becomes a
space, so no offset and no line number moves. A `//` behind other text is
not a comment.
-/
import BoardScript.Text.Blank

namespace BoardScript.Comment

/-- The lines of a text, each with the newline that ends it. -/
def lines : List Char → List (List Char)
  | [] => []
  | c :: rest =>
      if c = '\n' then [c] :: lines rest
      else match lines rest with
        | [] => [[c]]
        | line :: more => (c :: line) :: more

/-- Whether a line is a comment from its first visible character on. -/
def isComment (line : List Char) : Bool :=
  (line.dropWhile isBlank).take 2 == ['/', '/']

/-- One space for each byte of the character; line ends stay. -/
def blankChar (c : Char) : List Char :=
  if c = '\n' ∨ c = '\r' then [c] else List.replicate c.utf8Size ' '

def blankLine (line : List Char) : List Char :=
  if isComment line then line.flatMap blankChar else line

/-- The text with its comment lines blanked. -/
def blank (text : List Char) : List Char := (lines text).flatMap blankLine

end BoardScript.Comment
