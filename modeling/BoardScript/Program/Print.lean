/-
The tree of a program as nested lists: each node is its operator and its
parts between parentheses. Strings are quoted; everything else is written
as it was read.
-/
import BoardScript.Program.Node
import BoardScript.Text.Quoted

namespace BoardScript

/-- Parameter names with a blank between them. -/
def paramList (params : List Name) : String := " ".intercalate (params.map Name.text)

mutual

/-- The written form of a node. -/
def Node.render : Node → String
  | .block statements _ => "(do" ++ renderAll statements ++ ")"
  | .assign name value _ => "(= " ++ name.text ++ " " ++ value.render ++ ")"
  | .assignProperty object name value _ =>
      "(= (. " ++ object.render ++ " " ++ name.text ++ ") " ++ value.render ++ ")"
  | .assignIndex base index value _ =>
      "(= (index " ++ base.render ++ " " ++ index.render ++ ") " ++ value.render ++ ")"
  | .ifThen condition yes _ => "(if " ++ condition.render ++ " " ++ yes.render ++ ")"
  | .ifElse condition yes no _ =>
      "(if " ++ condition.render ++ " " ++ yes.render ++ " " ++ no.render ++ ")"
  | .conditional condition yes no _ =>
      "(? " ++ condition.render ++ " " ++ yes.render ++ " " ++ no.render ++ ")"
  | .whileLoop condition body _ => "(while " ++ condition.render ++ " " ++ body.render ++ ")"
  | .doLoop body condition _ => "(do-while " ++ body.render ++ " " ++ condition.render ++ ")"
  | .forLoop init condition step body _ =>
      "(for " ++ init.render ++ " " ++ condition.render ++ " " ++ step.render ++ " " ++
        body.render ++ ")"
  | .useBoard name _ => "(use " ++ name.text ++ ")"
  | .delete operand _ => "(delete " ++ operand.render ++ ")"
  | .returnNothing _ => "(return)"
  | .returnValue value _ => "(return " ++ value.render ++ ")"
  | .expression value _ => "(expr " ++ value.render ++ ")"
  | .function params body _ _ => "(function (" ++ paramList params ++ ") " ++ body.render ++ ")"
  | .map params body _ _ => "(map (" ++ paramList params ++ ") " ++ body.render ++ ")"
  | .call callee args _ => "(call " ++ callee.render ++ renderAll args ++ ")"
  | .callWith callee args attributes _ =>
      "(call " ++ callee.render ++ renderAll args ++
        " (attributes" ++ renderProperties attributes ++ "))"
  | .array items _ => "(array" ++ renderAll items ++ ")"
  | .object properties _ => "(object" ++ renderProperties properties ++ ")"
  | .index base index _ => "(index " ++ base.render ++ " " ++ index.render ++ ")"
  | .binary operator left right _ =>
      "(" ++ operator.text ++ " " ++ left.render ++ " " ++ right.render ++ ")"
  | .unary operator operand _ => "(" ++ operator.text ++ " " ++ operand.render ++ ")"
  | .identifier name _ => name
  | .numeral text _ _ => text
  | .string value _ => Quoted.quote value
  | .boolean value _ => if value then "true" else "false"
  | .coordinate axis operand _ => "(" ++ axis.text ++ " " ++ operand.render ++ ")"
  | .property object name _ => "(. " ++ object.render ++ " " ++ name.text ++ ")"

/-- Each node with a blank in front. -/
def renderAll : List Node → String
  | [] => ""
  | node :: rest => " " ++ node.render ++ renderAll rest

/-- Each property between parentheses with a blank in front. -/
def renderProperties : List Property → String
  | [] => ""
  | .mk name value :: rest => " (" ++ name.text ++ " " ++ value.render ++ ")" ++ renderProperties rest

end

end BoardScript
