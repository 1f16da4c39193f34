/-
What can be said of a function body without running it: which names it may
look up, and whether it is a formula, as the body of a map must be.
-/
import BoardScript.Program.Node

namespace BoardScript

-- ========================================================= names looked up

/-- Adds a text to a sorted list without repetition. -/
def insertSorted (text : String) : List String → List String
  | [] => [text]
  | other :: rest =>
      if text = other then other :: rest
      else if text < other then text :: other :: rest
      else other :: insertSorted text rest

/-- The name a single node looks up: an identifier, or the literal that a
call of `$` is given first. -/
def Node.lookedUp : Node → Option String
  | .identifier name _ => some name
  | .call (.identifier "$" _) (.string name _ :: _) _ => some name
  | .callWith (.identifier "$" _) (.string name _ :: _) _ _ => some name
  | _ => none

/-- The names that a body may look up, sorted. -/
def Node.namesLookedUp (body : Node) : List String :=
  (body.preorder.filterMap Node.lookedUp).foldl (fun names name => insertSorted name names) []

-- =============================================================== formulas

/-- Whether an operator computes a number from numbers. -/
def BinaryOperator.isArithmetic : BinaryOperator → Bool
  | .add | .subtract | .multiply | .divide | .modulo | .power => true
  | _ => false

mutual

/-- The first node that keeps a body from being a formula: only numbers,
names, coordinates, properties, arithmetic and calls without attributes
are allowed in one. What is called must be a name or a property. -/
def Node.notFormula : Node → Option Node
  | .numeral .. => none
  | .identifier .. => none
  | .coordinate _ operand _ => operand.notFormula
  | .property object _ _ => object.notFormula
  | .binary operator left right span =>
      if operator.isArithmetic then
        match left.notFormula with
        | some node => some node
        | none => right.notFormula
      else some (.binary operator left right span)
  | .unary .negate operand _ => operand.notFormula
  | .call callee args _ =>
      match callee with
      | .identifier .. => anyNotFormula args
      | .property .. => anyNotFormula args
      | _ => some callee
  | node => some node

/-- The first such node in a list. -/
def anyNotFormula : List Node → Option Node
  | [] => none
  | node :: rest =>
      match node.notFormula with
      | some found => some found
      | none => anyNotFormula rest

end

end BoardScript
