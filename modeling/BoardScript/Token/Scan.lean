/-
Cutting a text into tokens by longest match. A finite automaton reads the
bytes of the text for as long as it has a move, and the token is the longest
piece at whose end it was in an accepting state. Where no piece is accepted,
one character is taken as unmatched, so every text can be cut.

All that the classes of characters know are characters of one byte. The bytes
of the others are read one by one and belong to no class, so the automaton
can be in the midst of a character; a piece is cut out of the text only if it
begins and ends between characters.
-/
import BoardScript.Text.Source
import BoardScript.Token.Comment
import BoardScript.Token.Keyword

namespace BoardScript

-- ================================================= classes of characters

def isSpace (c : Char) : Bool :=
  c = ' ' || c = '\t' || c = '\n' || c = '\r' || c = '\x0b' || c = '\x0c'

def isWordStart (c : Char) : Bool := c.isAlpha || c = '_' || c = '$'

def isWordPart (c : Char) : Bool := isWordStart c || c.isDigit

/-- Operators of one character. -/
def operatorOf : Char → Option TokenKind
  | '(' => some .leftParen
  | ')' => some .rightParen
  | '\x7b' => some .leftBrace
  | '\x7d' => some .rightBrace
  | '[' => some .leftBracket
  | ']' => some .rightBracket
  | ',' => some .comma
  | ';' => some .semicolon
  | ':' => some .colon
  | '?' => some .question
  | '+' => some .plus
  | '*' => some .star
  | '/' => some .slash
  | '%' => some .percent
  | '^' => some .caret
  | '=' => some .assign
  | '!' => some .bang
  | '<' => some .less
  | '>' => some .greater
  | '-' => some .minus
  | _ => none

/-- Operators of two characters. -/
def operatorOfPair : Char → Char → Option TokenKind
  | '=', '=' => some .equal
  | '!', '=' => some .notEqual
  | '~', '=' => some .approx
  | '<', '=' => some .lessEqual
  | '>', '=' => some .greaterEqual
  | '<', '<' => some .objectOpen
  | '>', '>' => some .objectClose
  | '-', '>' => some .arrow
  | '&', '&' => some .and
  | '|', '|' => some .or
  | _, _ => none

/-- Characters that can begin an operator of two characters. -/
def beginsPair (c : Char) : Bool :=
  c = '=' || c = '!' || c = '~' || c = '<' || c = '>' || c = '-' || c = '&' || c = '|'

-- ============================================================= automaton

/-- What has been read of a token so far. A word knows its place in the tree
of the reserved words for as long as it is in front of one. -/
inductive LexState where
  | start
  | whitespace
  | word (node : Option keywordTree.Place)
  | integer
  | integerDot
  | leadingDot
  | fraction
  | exponentMark
  | exponentSign
  | exponent
  | stringBody
  | stringEscape
  | stringClosed
  | opening (first : UInt8)
  | operator (kind : TokenKind)
deriving Repr, DecidableEq

namespace LexState

/-- The move on one more byte, if there is one. The byte is compared with
characters of one byte; from 0x80 on it is none of them. -/
def step (state : LexState) (byte : UInt8) : Option LexState :=
  let c := Char.ofUInt8 byte
  match state with
  | start =>
      if isSpace c then some whitespace
      else if isWordStart c then some (word (keywordTree.child keywordTree.root byte))
      else if c.isDigit then some integer
      else if c = '.' then some leadingDot
      else if c = '\x27' then some stringBody
      else if beginsPair c then some (opening byte)
      else (operatorOf c).map operator
  | whitespace => if isSpace c then some whitespace else none
  | word node =>
      if isWordPart c then some (word (node.bind (keywordTree.child · byte))) else none
  | integer =>
      if c.isDigit then some integer else if c = '.' then some integerDot else none
  | integerDot => if c.isDigit then some fraction else none
  | leadingDot => if c.isDigit then some fraction else none
  | fraction =>
      if c.isDigit then some fraction
      else if c = 'e' ∨ c = 'E' then some exponentMark
      else none
  | exponentMark =>
      if c = '+' ∨ c = '-' then some exponentSign
      else if c.isDigit then some exponent
      else none
  | exponentSign => if c.isDigit then some exponent else none
  | exponent => if c.isDigit then some exponent else none
  | stringBody =>
      if c = '\x27' then some stringClosed
      else if c = '\x5c' then some stringEscape
      else some stringBody
  | stringEscape => some stringBody
  -- a second quote right behind the first continues the literal
  | stringClosed => if c = '\x27' then some stringBody else none
  | opening first => (operatorOfPair (Char.ofUInt8 first) c).map operator
  | operator _ => none

/-- The kind of token that may end here. -/
def accepts : LexState → Option TokenKind
  | whitespace => some .whitespace
  | word (some node) => some ((keywordTree.keyword node).getD .identifier)
  | word none => some .identifier
  | integer => some .integer
  | fraction => some .float
  | exponent => some .float
  | leadingDot => some .dot
  | stringClosed => some .string
  | opening first => operatorOf (Char.ofUInt8 first)
  | operator kind => some kind
  | start => none
  | integerDot => none
  | exponentMark => none
  | exponentSign => none
  | stringBody => none
  | stringEscape => none

/-- Runs the automaton from `cursor` on as far as it goes. `last` is the last
accepting point: the kind of the token and where it ends. -/
def longest (state : LexState) (bytes : ByteArray) (cursor : Nat)
    (last : Option (TokenKind × Nat)) : Option (TokenKind × Nat) :=
  if h : cursor < bytes.size then
    match state.step bytes[cursor] with
    | none => last
    | some next =>
        let last := match next.accepts with
          | some kind => some (kind, cursor + 1)
          | none => last
        next.longest bytes (cursor + 1) last
  else last
termination_by bytes.size - cursor

end LexState

-- ================================================================= pieces

/-- The bytes of a text from `start` up to `stop`. They are no text where one
of the two is inside of a character or past the end. -/
def slice? (text : String) (start stop : Nat) : Option String :=
  if h : start ≤ stop ∧ String.Pos.Raw.IsValid text ⟨start⟩ ∧ String.Pos.Raw.IsValid text ⟨stop⟩ then
    some (text.extract (text.pos ⟨start⟩ h.2.1) (text.pos ⟨stop⟩ h.2.2))
  else none

/-- What is cut off a text, and the offset just past it. -/
structure Piece where
  kind : TokenKind
  lexeme : String
  stop : Nat
deriving Repr, DecidableEq

/-- The longest token at `offset`, or one character that begins none; `none`
where it would not be cut off between characters. -/
def nextPiece? (text : String) (offset : Nat) : Option Piece :=
  if text.utf8ByteSize ≤ offset then some ⟨.endOfInput, "", text.utf8ByteSize⟩
  else
    match LexState.start.longest text.toByteArray offset none with
    | some (kind, stop) => (slice? text offset stop).map (⟨kind, ·, stop⟩)
    | none => do
        let rest ← slice? text offset text.utf8ByteSize
        let stop := offset + (rest.front?.map Char.utf8Size).getD 1
        (slice? text offset stop).map (⟨.unmatched, ·, stop⟩)

-- ================================================================ scanner

/-- A text without its comment lines, and how far it has been cut. -/
structure Scanner where
  source : Source
  offset : Nat
  atEnd : Bool

/-- What a scanner answers. It fails at a piece that cannot be cut out, and
at one without bytes, behind which it would be where it was. -/
inductive Scanned where
  | failed
  | ended
  | token (token : Token) (after : Scanner)

namespace Scanner

def ofText (text : String) : Scanner :=
  ⟨.ofText (.ofList (Comment.blank text.toList)), 0, false⟩

theorem slice_stop_le {text lexeme : String} {start stop : Nat}
    (h : slice? text start stop = some lexeme) : stop ≤ text.utf8ByteSize := by
  unfold slice? at h
  split at h
  · rename_i hvalid
    exact hvalid.2.2.le_rawEndPos
  · cases h

theorem piece_stop_le {text : String} {offset : Nat} {piece : Piece}
    (h : nextPiece? text offset = some piece) : piece.stop ≤ text.utf8ByteSize := by
  unfold nextPiece? at h
  split at h
  · cases h
    exact Nat.le_refl _
  · split at h
    · obtain ⟨lexeme, hslice, rfl⟩ := Option.map_eq_some_iff.1 h
      exact slice_stop_le hslice
    · obtain ⟨rest, -, h⟩ := Option.bind_eq_some_iff.1 h
      obtain ⟨lexeme, hslice, rfl⟩ := Option.map_eq_some_iff.1 h
      exact slice_stop_le hslice

/-- The next token. Blanks are cut off and dropped. -/
def next (scanner : Scanner) : Scanned :=
  if scanner.atEnd then .ended
  else
    match _hpiece : nextPiece? scanner.source.text scanner.offset with
    | none => .failed
    | some piece =>
        let after := { scanner with offset := piece.stop }
        let position := scanner.source.position scanner.offset
        if piece.kind = .endOfInput then
          .token ⟨piece.kind, piece.lexeme, .before scanner.offset, position⟩
            { after with atEnd := true }
        else if _hmoved : scanner.offset < piece.stop then
          if piece.kind = .whitespace then after.next
          else .token ⟨piece.kind, piece.lexeme, .between scanner.offset piece.stop, position⟩ after
        else .failed
termination_by scanner.source.text.utf8ByteSize - scanner.offset
decreasing_by
  have := piece_stop_le _hpiece
  show _ - piece.stop < _ - scanner.offset
  omega

/-- How much there is left to answer for. -/
def remaining (scanner : Scanner) : Nat :=
  if scanner.atEnd then 0 else scanner.source.text.utf8ByteSize - scanner.offset + 1

theorem remaining_lt {scanner after : Scanner} {token : Token}
    (h : scanner.next = .token token after) : after.remaining < scanner.remaining := by
  fun_induction next scanner with
  | case1 => cases h
  | case2 => cases h
  | case3 scanner hopen piece hpiece behind position hend =>
      cases h
      simp [remaining, hopen]
  | case4 scanner hopen piece hpiece behind hend hmoved hblank ih =>
      have hstop := piece_stop_le hpiece
      have hrest := ih h
      have hbehind : behind.remaining < scanner.remaining := by
        simp only [remaining, hopen, behind, if_false, Bool.false_eq_true]
        omega
      exact Nat.lt_trans hrest hbehind
  | case5 scanner hopen piece hpiece behind position hend hmoved hblank =>
      have hstop := piece_stop_le hpiece
      rw [← (Scanned.token.inj h).2]
      simp only [remaining, hopen, behind, if_false, Bool.false_eq_true]
      omega
  | case6 => cases h

/-- All tokens from here to the end, if the scanner does not fail. -/
def tokens? (scanner : Scanner) : Option (List Token) :=
  match _hnext : scanner.next with
  | .failed => none
  | .ended => some []
  | .token token after => after.tokens?.map (token :: ·)
termination_by scanner.remaining
decreasing_by exact remaining_lt _hnext

end Scanner

namespace Token

/-- The tokens of a program text, comment lines blanked first. -/
def scan (text : String) : List Token := (Scanner.ofText text).tokens?.getD []

end Token

end BoardScript
