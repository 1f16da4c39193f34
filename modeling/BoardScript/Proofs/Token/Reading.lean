/-
Cutting by characters. The scanner reads bytes and has to look where it cuts;
what it does is easier to say of a text as a list of characters, of which any
number can be taken. Here the automaton reads whole characters, a word is told
from a keyword by looking it up in the list, and a cursor counts bytes, lines
and columns as it walks along. `Token.scan_eq` says that the scanner's tokens
are these.
-/
import BoardScript.Token.Scan

namespace BoardScript

-- ================================================================== words

theorem isAlpha_eq (c : Char) : c.isAlpha = (decide (c.val ≥ 'A'.val ∧ c.val ≤ 'Z'.val)
    || decide (c.val ≥ 'a'.val) && decide (c.val ≤ 'z'.val)) := rfl

namespace TokenKind

/-- The kind of a word. -/
def ofWord (word : String) : TokenKind :=
  (keywords.lookup word).getD identifier

/-- A list in which every entry is the first for its word is looked up as a
set. -/
theorem lookup_eq_some_iff_mem {words : List (String × TokenKind)}
    (h : ∀ entry ∈ words, words.lookup entry.1 = some entry.2) {word : String} {kind : TokenKind} :
    words.lookup word = some kind ↔ (word, kind) ∈ words := by
  constructor
  · intro hlookup
    obtain ⟨front, back, hsplit, -⟩ := List.lookup_eq_some_iff.1 hlookup
    exact hsplit ▸ List.mem_append_right _ List.mem_cons_self
  · exact h (word, kind)

theorem lookup_keywords {word : String} {kind : TokenKind} :
    keywords.lookup word = some kind ↔ (word, kind) ∈ keywords :=
  lookup_eq_some_iff_mem (by decide)

/-- A word is what the list of keywords says, or else an identifier. -/
theorem ofWord_eq_iff {word : String} {kind : TokenKind} :
    ofWord word = kind ↔ (word, kind) ∈ keywords ∨
      (∀ other, (word, other) ∉ keywords) ∧ kind = .identifier := by
  simp only [ofWord, ← lookup_keywords]
  cases keywords.lookup word <;> simp [eq_comm]

/-- A word is of no kind but those that the list gives, and an identifier. -/
theorem ofWord_ne {kind : TokenKind} (hidentifier : kind ≠ .identifier)
    (hkind : ∀ entry ∈ keywords, entry.2 ≠ kind) (word : String) : ofWord word ≠ kind := by
  rw [Ne, ofWord_eq_iff]
  rintro (hmem | ⟨-, h⟩)
  · exact hkind _ hmem rfl
  · exact hidentifier h

/-- No word is reserved twice, so it does not matter from which end the list
is read. -/
theorem lookup_reverse_keywords (word : String) :
    keywords.reverse.lookup word = keywords.lookup word := by
  refine Option.ext fun kind => ?_
  rw [lookup_keywords, lookup_eq_some_iff_mem (by decide), List.mem_reverse]

end TokenKind

-- ============================================================= automaton

/-- What has been read of a token so far, without the place in the tree of the
reserved words. -/
inductive Reading where
  | start
  | whitespace
  | word
  | integer
  | integerDot
  | leadingDot
  | fraction
  | exponentMark
  | exponentSign
  | exponent
  | stringBody
  | stringEscape
  | stringClosed
  | opening (first : Char)
  | operator (kind : TokenKind)
deriving Repr, DecidableEq

namespace Reading

/-- The move on one more character, if there is one. -/
def step : Reading → Char → Option Reading
  | start, c =>
      if isSpace c then some whitespace
      else if isWordStart c then some word
      else if c.isDigit then some integer
      else if c = '.' then some leadingDot
      else if c = '\x27' then some stringBody
      else if beginsPair c then some (opening c)
      else (operatorOf c).map operator
  | whitespace, c => if isSpace c then some whitespace else none
  | word, c => if isWordPart c then some word else none
  | integer, c =>
      if c.isDigit then some integer else if c = '.' then some integerDot else none
  | integerDot, c => if c.isDigit then some fraction else none
  | leadingDot, c => if c.isDigit then some fraction else none
  | fraction, c =>
      if c.isDigit then some fraction
      else if c = 'e' ∨ c = 'E' then some exponentMark
      else none
  | exponentMark, c =>
      if c = '+' ∨ c = '-' then some exponentSign
      else if c.isDigit then some exponent
      else none
  | exponentSign, c => if c.isDigit then some exponent else none
  | exponent, c => if c.isDigit then some exponent else none
  | stringBody, c =>
      if c = '\x27' then some stringClosed
      else if c = '\x5c' then some stringEscape
      else some stringBody
  | stringEscape, _ => some stringBody
  -- a second quote right behind the first continues the literal
  | stringClosed, c => if c = '\x27' then some stringBody else none
  | opening first, c => (operatorOfPair first c).map operator
  | operator _, _ => none

/-- The kind of token that may end here. A word is told from a keyword
afterwards, by its text. -/
def accepts : Reading → Option TokenKind
  | whitespace => some .whitespace
  | word => some .identifier
  | integer => some .integer
  | fraction => some .float
  | exponent => some .float
  | leadingDot => some .dot
  | stringClosed => some .string
  | opening first => operatorOf first
  | operator kind => some kind
  | start => none
  | integerDot => none
  | exponentMark => none
  | exponentSign => none
  | stringBody => none
  | stringEscape => none

/-- Runs the automaton as far as it goes. `taken` counts the characters
read and `best` is the last accepting point. -/
def longest (reading : Reading) (taken : Nat) (best : Option (TokenKind × Nat)) :
    List Char → Option (TokenKind × Nat)
  | [] => best
  | c :: rest =>
      match reading.step c with
      | none => best
      | some next =>
          let best := match next.accepts with
            | some kind => some (kind, taken + 1)
            | none => best
          next.longest (taken + 1) best rest

end Reading

-- ================================================================ lexeme

/-- A cut: its kind and its characters, of which there is at least one. -/
structure Lexeme where
  kind : TokenKind
  first : Char
  others : List Char

namespace Lexeme

def chars (lexeme : Lexeme) : List Char := lexeme.first :: lexeme.others

def text (lexeme : Lexeme) : String := String.ofList lexeme.chars

/-- The first cut of a text that begins with `c` and goes on with `rest`. -/
def next (c : Char) (rest : List Char) : Lexeme :=
  match Reading.start.longest 0 none (c :: rest) with
  | none => ⟨.unmatched, c, []⟩
  | some (kind, taken) =>
      let others := rest.take (taken - 1)
      let kind := if kind = .identifier then .ofWord (String.ofList (c :: others)) else kind
      ⟨kind, c, others⟩

end Lexeme

-- ================================================================ cursor

/-- How far the text has been read, in bytes and in lines and columns. -/
structure Cursor where
  offset : Nat
  position : Position
deriving Repr, DecidableEq

namespace Cursor

def start : Cursor := ⟨0, ⟨1, 1⟩⟩

/-- The cursor behind one more character. -/
def advance (cursor : Cursor) (c : Char) : Cursor :=
  ⟨cursor.offset + c.utf8Size,
   if c = '\n' then ⟨cursor.position.line + 1, 1⟩
   else ⟨cursor.position.line, cursor.position.column + 1⟩⟩

def advanceAll (cursor : Cursor) (cs : List Char) : Cursor := cs.foldl advance cursor

end Cursor

-- =============================================================== scanning

namespace Token

/-- The token that ends every token list. -/
def atEnd (cursor : Cursor) : Token :=
  ⟨.endOfInput, "", .before cursor.offset, cursor.position⟩

/-- The tokens of a text that begins at `cursor`, whitespace left out. -/
def scanFrom (cursor : Cursor) (text : List Char) : List Token :=
  match text with
  | [] => [atEnd cursor]
  | c :: rest =>
      let lexeme := Lexeme.next c rest
      let next := cursor.advanceAll lexeme.chars
      let tokens := scanFrom next (rest.drop lexeme.others.length)
      if lexeme.kind = .whitespace then tokens
      else ⟨lexeme.kind, lexeme.text, .between cursor.offset next.offset, cursor.position⟩ :: tokens
termination_by text.length
decreasing_by simp only [List.length_cons, List.length_drop]; omega

end Token

end BoardScript
