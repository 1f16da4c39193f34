/-
The vocabulary of the language: the kinds of token a text is cut into, in
one fixed order. That order is the order in which kinds are listed to a
person, and a kind's place in it is its bit in a set of kinds.
-/
import BoardScript.Text.Span

namespace BoardScript

/-- A kind of token. -/
inductive TokenKind where
  | endOfInput
  | unmatched
  | whitespace
  | identifier
  | integer
  | float
  | string
  | ifWord
  | elseWord
  | whileWord
  | doWord
  | forWord
  | functionWord
  | mapWord
  | useWord
  | deleteWord
  | returnWord
  | trueWord
  | falseWord
  | coordX
  | coordY
  | leftParen
  | rightParen
  | leftBrace
  | rightBrace
  | leftBracket
  | rightBracket
  | comma
  | semicolon
  | dot
  | colon
  | question
  | assign
  | equal
  | notEqual
  | approx
  | less
  | greater
  | lessEqual
  | greaterEqual
  | objectOpen
  | objectClose
  | arrow
  | plus
  | minus
  | star
  | slash
  | percent
  | caret
  | bang
  | and
  | or
deriving Repr, DecidableEq, Inhabited

namespace TokenKind

/-- Every kind, in declaration order. -/
def all : List TokenKind :=
  [.endOfInput, .unmatched, .whitespace, .identifier, .integer, .float, .string,
   .ifWord, .elseWord, .whileWord, .doWord, .forWord, .functionWord, .mapWord,
   .useWord, .deleteWord, .returnWord, .trueWord, .falseWord, .coordX, .coordY,
   .leftParen, .rightParen, .leftBrace, .rightBrace, .leftBracket, .rightBracket,
   .comma, .semicolon, .dot, .colon, .question, .assign, .equal, .notEqual,
   .approx, .less, .greater, .lessEqual, .greaterEqual, .objectOpen, .objectClose,
   .arrow, .plus, .minus, .star, .slash, .percent, .caret, .bang, .and, .or]

/-- The place of a kind in declaration order. -/
def index (kind : TokenKind) : Nat := kind.ctorIdx

/-- The name of a kind as messages give it. -/
def text : TokenKind → String
  | endOfInput => "end of input"
  | unmatched => "unmatched character"
  | whitespace => "whitespace"
  | identifier => "identifier"
  | integer => "integer"
  | float => "float"
  | string => "string"
  | ifWord => "'if'"
  | elseWord => "'else'"
  | whileWord => "'while'"
  | doWord => "'do'"
  | forWord => "'for'"
  | functionWord => "'function'"
  | mapWord => "'map'"
  | useWord => "'use'"
  | deleteWord => "'delete'"
  | returnWord => "'return'"
  | trueWord => "'true'"
  | falseWord => "'false'"
  | coordX => "'X'"
  | coordY => "'Y'"
  | leftParen => "'('"
  | rightParen => "')'"
  | leftBrace => "'\x7b'"
  | rightBrace => "'\x7d'"
  | leftBracket => "'['"
  | rightBracket => "']'"
  | comma => "','"
  | semicolon => "';'"
  | dot => "'.'"
  | colon => "':'"
  | question => "'?'"
  | assign => "'='"
  | equal => "'=='"
  | notEqual => "'!='"
  | approx => "'~='"
  | less => "'<'"
  | greater => "'>'"
  | lessEqual => "'<='"
  | greaterEqual => "'>='"
  | objectOpen => "'<<'"
  | objectClose => "'>>'"
  | arrow => "'->'"
  | plus => "'+'"
  | minus => "'-'"
  | star => "'*'"
  | slash => "'/'"
  | percent => "'%'"
  | caret => "'^'"
  | bang => "'!'"
  | and => "'&&'"
  | or => "'||'"

/-- The reserved words. Every other word is an identifier. -/
def keywords : List (String × TokenKind) :=
  [("if", ifWord), ("else", elseWord), ("while", whileWord), ("do", doWord),
   ("for", forWord), ("function", functionWord), ("map", mapWord), ("use", useWord),
   ("delete", deleteWord), ("return", returnWord), ("true", trueWord),
   ("false", falseWord), ("X", coordX), ("Y", coordY)]

end TokenKind

/-- A piece of the text with its kind and where it stands. -/
structure Token where
  kind : TokenKind
  lexeme : String
  span : Span
  position : Position
deriving Repr, DecidableEq, Inhabited

end BoardScript
