/-
String literals. The text stands between single quotes; inside, a doubled
quote means one quote and a backslash means the character behind it. The
writer doubles quotes and backslashes and leaves everything else alone.
-/

namespace BoardScript.Literal

/-- What the characters between the quotes stand for. -/
def decode : List Char → List Char
  | [] => []
  | ['\x5c'] => []
  | '\x5c' :: c :: rest => c :: decode rest
  | '\x27' :: '\x27' :: rest => '\x27' :: decode rest
  | c :: rest => c :: decode rest

/-- The characters to write between the quotes. -/
def encode : List Char → List Char
  | [] => []
  | c :: rest =>
      if c = '\x5c' ∨ c = '\x27' then c :: c :: encode rest else c :: encode rest

/-- The value of a string literal, quotes included in the argument. -/
def value (lexeme : String) : String :=
  String.ofList (decode lexeme.toList.tail.dropLast)

/-- A text as a string literal. -/
def quote (text : String) : String :=
  String.ofList ('\x27' :: encode text.toList ++ ['\x27'])

end BoardScript.Literal
