/-
A program written out again in the language's own words, in one canonical
form: every operator in parentheses, every body in braces, a statement a
line, four blanks for each level of nesting.

A node's text is written without the semicolon that may end it; whether
one is due is a matter of the node's form alone, and it is added where the
node stands as a statement.
-/
import BoardScript.Program.Node
import BoardScript.Token.Literal

namespace BoardScript

namespace Surface

/-- The blanks in front of a line at a level of nesting. -/
def margin (level : Nat) : String := String.join (List.replicate level "    ")

/-- The text of a block around its lines. -/
def braces (level : Nat) (lines : String) : String :=
  "\x7b\n" ++ lines ++ margin level ++ "\x7d"

/-- The semicolon that ends a node where it stands as a statement. Nodes
that end in a body have none. -/
def mark : Node → String
  | .block .. | .ifThen .. | .ifElse .. | .whileLoop .. | .forLoop .. => ""
  | _ => ";"

/-- A line for a statement. -/
def line (level : Nat) (node : Node) (text : String) : String :=
  margin level ++ text ++ mark node ++ "\n"

end Surface

open Surface

mutual

/-- The text of a node at a level of nesting, without its semicolon. -/
def Node.surface (level : Nat) : Node → String
  | .block statements _ => braces level (surfaceLines (level + 1) statements)
  | .assign name value _ => name.text ++ " = " ++ value.surface level
  | .assignProperty object name value _ =>
      object.surface level ++ "." ++ name.text ++ " = " ++ value.surface level
  | .assignIndex base index value _ =>
      base.surface level ++ "[" ++ index.surface level ++ "] = " ++ value.surface level
  | .ifThen condition yes _ =>
      "if (" ++ condition.surface level ++ ") " ++
        (if yes.isBlock then yes.surface level
         else braces level (line (level + 1) yes (yes.surface (level + 1))))
  | .ifElse condition yes no _ =>
      "if (" ++ condition.surface level ++ ") " ++
        (if yes.isBlock then yes.surface level
         else braces level (line (level + 1) yes (yes.surface (level + 1)))) ++
        " else " ++
        (if no.isBlock then no.surface level
         else braces level (line (level + 1) no (no.surface (level + 1))))
  | .conditional condition yes no _ =>
      "(" ++ condition.surface level ++ " ? " ++ yes.surface level ++ " : " ++
        no.surface level ++ ")"
  | .whileLoop condition body _ =>
      "while (" ++ condition.surface level ++ ") " ++
        (if body.isBlock then body.surface level
         else braces level (line (level + 1) body (body.surface (level + 1))))
  | .doLoop body condition _ =>
      "do " ++
        (if body.isBlock then body.surface level
         else braces level (line (level + 1) body (body.surface (level + 1)))) ++
        " while (" ++ condition.surface level ++ ")"
  | .forLoop init condition step body _ =>
      "for (" ++ init.surface level ++ "; " ++ condition.surface level ++ "; " ++
        step.surface level ++ ") " ++
        (if body.isBlock then body.surface level
         else braces level (line (level + 1) body (body.surface (level + 1))))
  | .useBoard name _ => "use " ++ name.text
  | .delete operand _ => "delete " ++ operand.surface level
  | .returnNothing _ => "return"
  | .returnValue value _ => "return " ++ value.surface level
  | .expression value _ => value.surface level
  | .function params body _ _ =>
      "function (" ++ ", ".intercalate (params.map Name.text) ++ ") " ++
        (if body.isBlock then body.surface level
         else braces level (line (level + 1) body (body.surface (level + 1))))
  | .map params body _ _ =>
      "(map (" ++ ", ".intercalate (params.map Name.text) ++ ") -> " ++ body.surface level ++ ")"
  | .call callee args _ => callee.surface level ++ "(" ++ surfaceList level args ++ ")"
  | .callWith callee args attributes _ =>
      callee.surface level ++ "(" ++ surfaceList level args ++ ") <<" ++
        surfaceProperties level attributes ++ " >>"
  | .array items _ => "[" ++ surfaceList level items ++ "]"
  | .object properties _ => "<<" ++ surfaceProperties level properties ++ " >>"
  | .index base index _ => base.surface level ++ "[" ++ index.surface level ++ "]"
  | .binary operator left right _ =>
      "(" ++ left.surface level ++ " " ++ operator.text ++ " " ++ right.surface level ++ ")"
  | .unary operator operand _ => "(" ++ operator.text ++ operand.surface level ++ ")"
  | .identifier name _ => name
  | .numeral text _ _ => text
  | .string value _ => Literal.quote value
  | .boolean value _ => if value then "true" else "false"
  | .coordinate axis operand _ => axis.text ++ "(" ++ operand.surface level ++ ")"
  | .property object name _ => object.surface level ++ "." ++ name.text

/-- The lines of statements. -/
def surfaceLines (level : Nat) : List Node → String
  | [] => ""
  | node :: rest => line level node (node.surface level) ++ surfaceLines level rest

/-- Expressions with commas between them. -/
def surfaceList (level : Nat) : List Node → String
  | [] => ""
  | [node] => node.surface level
  | node :: rest => node.surface level ++ ", " ++ surfaceList level rest

/-- Properties with commas between them, each with a blank in front. -/
def surfaceProperties (level : Nat) : List Property → String
  | [] => ""
  | [.mk name value] => " " ++ name.text ++ ": " ++ value.surface level
  | .mk name value :: rest =>
      " " ++ name.text ++ ": " ++ value.surface level ++ "," ++ surfaceProperties level rest

end

namespace Surface

/-- A whole program, a statement a line. -/
def program (root : Node) : String := surfaceLines 0 root.statements

/-- One node: an expression, or a statement as it stands in a block. -/
def node (n : Node) : String :=
  if n.isStatement then n.surface 0 ++ mark n else n.surface 0

/-- A function literal, or a map literal without parentheses. -/
def literal (params : List Name) (body : Node) (isMap : Bool) : String :=
  if isMap then "map (" ++ ", ".intercalate (params.map Name.text) ++ ") -> " ++ body.surface 0
  else (Node.function params body default default).surface 0

end Surface

end BoardScript
