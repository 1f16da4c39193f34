/-
The grammar of the language. Each rule pairs a production with what it
builds: given the span of the whole phrase and what its symbols stand for,
the meaning of the head. A rule that is handed meanings of the wrong sort
builds nothing.

Rule zero is the start rule. The grammar has one ambiguity, an `else`
behind two open `if`s, which the tables settle by shifting.
-/
import BoardScript.Grammar.Tables
import BoardScript.Program.Node
import BoardScript.Token.Literal

namespace BoardScript

open Grammar

/-- What an assignment writes to. -/
inductive Target where
  | variable (name : Name)
  | property (object : Node) (name : Name)
  | index (base : Node) (place : Node)

/-- The assignment to a target. -/
def Target.assign (value : Node) (span : Span) : Target → Node
  | .variable name => .assign name value span
  | .property object name => .assignProperty object name value span
  | .index base place => .assignIndex base place value span

/-- What a symbol of a production stands for. -/
inductive Meaning where
  | token (token : Token)
  | node (node : Node)
  | nodes (nodes : List Node)
  | names (names : List Name)
  | properties (properties : List Property)
  | name (name : Name)
  | target (target : Target)

instance : Inhabited Meaning := ⟨.nodes []⟩

/-- A token read as a name. -/
def Token.name (token : Token) : Name := ⟨token.lexeme, token.span⟩

/-- A production and what it builds. -/
structure Rule where
  production : Production
  build : Span → List Meaning → Option Meaning

namespace Rule

/-- A meaning taken over from the first symbol. -/
def pass : Span → List Meaning → Option Meaning
  | _, m :: _ => some m
  | _, [] => none

/-- An operator between two operands. -/
def infixed (operator : BinaryOperator) : Span → List Meaning → Option Meaning
  | span, [.node left, _, .node right] => some (.node (.binary operator left right span))
  | _, _ => none

end Rule

private abbrev t (kind : TokenKind) : Symbol := .terminal kind

private abbrev n (nonTerminal : NonTerminal) : Symbol := .nonTerminal nonTerminal

open Rule in
/-- The rules of statements. -/
def statementRules : List Rule :=
  [⟨⟨.accept, [n .program]⟩, pass⟩,
   ⟨⟨.program, [n .statements]⟩, fun
    | span, [.nodes statements] => some (.node (.block statements span))
    | _, _ => none⟩,
   ⟨⟨.statements, [n .statements, n .statement]⟩, fun
    | _, [.nodes statements, .node statement] => some (.nodes (statements ++ [statement]))
    | _, _ => none⟩,
   ⟨⟨.statements, []⟩, fun _ _ => some (.nodes [])⟩,
   ⟨⟨.statement, [t .ifWord, t .leftParen, n .expression, t .rightParen, n .statement]⟩, fun
    | span, [_, _, .node condition, _, .node yes] => some (.node (.ifThen condition yes span))
    | _, _ => none⟩,
   ⟨⟨.statement, [t .ifWord, t .leftParen, n .expression, t .rightParen, n .statement,
      t .elseWord, n .statement]⟩, fun
    | span, [_, _, .node condition, _, .node yes, _, .node no] =>
        some (.node (.ifElse condition yes no span))
    | _, _ => none⟩,
   ⟨⟨.statement, [t .whileWord, t .leftParen, n .expression, t .rightParen, n .statement]⟩, fun
    | span, [_, _, .node condition, _, .node body] => some (.node (.whileLoop condition body span))
    | _, _ => none⟩,
   ⟨⟨.statement, [t .doWord, n .statement, t .whileWord, t .leftParen, n .expression,
      t .rightParen, t .semicolon]⟩, fun
    | span, [_, .node body, _, _, .node condition, _, _] =>
        some (.node (.doLoop body condition span))
    | _, _ => none⟩,
   ⟨⟨.statement, [t .forWord, t .leftParen, n .assignment, t .semicolon, n .expression,
      t .semicolon, n .assignment, t .rightParen, n .statement]⟩, fun
    | span, [_, _, .node init, _, .node condition, _, .node step, _, .node body] =>
        some (.node (.forLoop init condition step body span))
    | _, _ => none⟩,
   ⟨⟨.statement, [t .useWord, t .identifier, t .semicolon]⟩, fun
    | span, [_, .token name, _] => some (.node (.useBoard name.name span))
    | _, _ => none⟩,
   ⟨⟨.statement, [t .deleteWord, n .expression, t .semicolon]⟩, fun
    | span, [_, .node operand, _] => some (.node (.delete operand span))
    | _, _ => none⟩,
   ⟨⟨.statement, [t .returnWord, t .semicolon]⟩, fun span _ => some (.node (.returnNothing span))⟩,
   ⟨⟨.statement, [t .returnWord, n .expression, t .semicolon]⟩, fun
    | span, [_, .node value, _] => some (.node (.returnValue value span))
    | _, _ => none⟩,
   ⟨⟨.statement, [n .assignment, t .semicolon]⟩, pass⟩,
   ⟨⟨.statement, [n .expression, t .semicolon]⟩, fun
    | span, [.node value, _] => some (.node (.expression value span))
    | _, _ => none⟩,
   ⟨⟨.statement, [t .leftBrace, n .statements, t .rightBrace]⟩, fun
    | span, [_, .nodes statements, _] => some (.node (.block statements span))
    | _, _ => none⟩,
   ⟨⟨.statement, [t .semicolon]⟩, fun span _ => some (.node (.block [] span))⟩,
   ⟨⟨.assignment, [n .target, t .assign, n .expression]⟩, fun
    | span, [.target target, _, .node value] => some (.node (target.assign value span))
    | _, _ => none⟩,
   ⟨⟨.target, [t .identifier]⟩, fun
    | _, [.token name] => some (.target (.variable name.name))
    | _, _ => none⟩,
   ⟨⟨.target, [n .access, t .dot, n .propertyName]⟩, fun
    | _, [.node object, _, .name name] => some (.target (.property object name))
    | _, _ => none⟩,
   ⟨⟨.target, [n .access, t .leftBracket, n .expression, t .rightBracket]⟩, fun
    | _, [.node base, _, .node place, _] => some (.target (.index base place))
    | _, _ => none⟩]

open Rule in
/-- The rules of expressions made with operators, loosest first. -/
def operatorRules : List Rule :=
  [⟨⟨.expression, [n .disjunction]⟩, pass⟩,
   ⟨⟨.expression, [n .disjunction, t .question, n .expression, t .colon, n .expression]⟩, fun
    | span, [.node condition, _, .node yes, _, .node no] =>
        some (.node (.conditional condition yes no span))
    | _, _ => none⟩,
   ⟨⟨.expression, [t .mapWord, t .leftParen, n .parameters, t .rightParen, t .arrow,
      n .expression]⟩, fun
    | span, [_, _, .names params, _, _, .node body] => some (.node (.map params body span span))
    | _, _ => none⟩,
   ⟨⟨.disjunction, [n .disjunction, t .or, n .conjunction]⟩, infixed .or⟩,
   ⟨⟨.disjunction, [n .conjunction]⟩, pass⟩,
   ⟨⟨.conjunction, [n .conjunction, t .and, n .comparison]⟩, infixed .and⟩,
   ⟨⟨.conjunction, [n .comparison]⟩, pass⟩,
   ⟨⟨.comparison, [n .comparison, t .equal, n .sum]⟩, infixed .equal⟩,
   ⟨⟨.comparison, [n .comparison, t .notEqual, n .sum]⟩, infixed .notEqual⟩,
   ⟨⟨.comparison, [n .comparison, t .approx, n .sum]⟩, infixed .approx⟩,
   ⟨⟨.comparison, [n .comparison, t .less, n .sum]⟩, infixed .less⟩,
   ⟨⟨.comparison, [n .comparison, t .greater, n .sum]⟩, infixed .greater⟩,
   ⟨⟨.comparison, [n .comparison, t .lessEqual, n .sum]⟩, infixed .lessEqual⟩,
   ⟨⟨.comparison, [n .comparison, t .greaterEqual, n .sum]⟩, infixed .greaterEqual⟩,
   ⟨⟨.comparison, [n .sum]⟩, pass⟩,
   ⟨⟨.sum, [n .sum, t .plus, n .product]⟩, infixed .add⟩,
   ⟨⟨.sum, [n .sum, t .minus, n .product]⟩, infixed .subtract⟩,
   ⟨⟨.sum, [n .product]⟩, pass⟩,
   ⟨⟨.product, [n .product, t .star, n .unary]⟩, infixed .multiply⟩,
   ⟨⟨.product, [n .product, t .slash, n .unary]⟩, infixed .divide⟩,
   ⟨⟨.product, [n .product, t .percent, n .unary]⟩, infixed .modulo⟩,
   ⟨⟨.product, [n .unary]⟩, pass⟩,
   ⟨⟨.unary, [t .minus, n .unary]⟩, fun
    | span, [_, .node operand] => some (.node (.unary .negate operand span))
    | _, _ => none⟩,
   -- a plus in front changes nothing
   ⟨⟨.unary, [t .plus, n .unary]⟩, fun
    | span, [_, .node operand] => some (.node (operand.withSpan span))
    | _, _ => none⟩,
   ⟨⟨.unary, [t .bang, n .unary]⟩, fun
    | span, [_, .node operand] => some (.node (.unary .not operand span))
    | _, _ => none⟩,
   ⟨⟨.unary, [n .power]⟩, pass⟩,
   ⟨⟨.power, [n .access, t .caret, n .unary]⟩, infixed .power⟩,
   ⟨⟨.power, [n .access]⟩, pass⟩]

open Rule in
/-- The rules of values and of what can be written behind one. -/
def valueRules : List Rule :=
  [⟨⟨.access, [n .access, t .leftBracket, n .expression, t .rightBracket]⟩, fun
    | span, [.node base, _, .node place, _] => some (.node (.index base place span))
    | _, _ => none⟩,
   ⟨⟨.access, [n .access, t .dot, n .propertyName]⟩, fun
    | span, [.node object, _, .name name] => some (.node (.property object name span))
    | _, _ => none⟩,
   ⟨⟨.access, [n .access, t .leftParen, n .arguments, t .rightParen]⟩, fun
    | span, [.node callee, _, .nodes args, _] => some (.node (.call callee args span))
    | _, _ => none⟩,
   ⟨⟨.access, [n .access, t .leftParen, n .arguments, t .rightParen, n .object]⟩, fun
    | span, [.node callee, _, .nodes args, _, .node (.object attributes _)] =>
        some (.node (.callWith callee args attributes span))
    | _, _ => none⟩,
   ⟨⟨.access, [n .value]⟩, pass⟩,
   ⟨⟨.value, [t .integer]⟩, fun
    | span, [.token token] => some (.node (.numeral token.lexeme .integer span))
    | _, _ => none⟩,
   ⟨⟨.value, [t .float]⟩, fun
    | span, [.token token] => some (.node (.numeral token.lexeme .float span))
    | _, _ => none⟩,
   ⟨⟨.value, [t .string]⟩, fun
    | span, [.token token] => some (.node (.string (Literal.value token.lexeme) span))
    | _, _ => none⟩,
   ⟨⟨.value, [t .trueWord]⟩, fun span _ => some (.node (.boolean true span))⟩,
   ⟨⟨.value, [t .falseWord]⟩, fun span _ => some (.node (.boolean false span))⟩,
   ⟨⟨.value, [t .identifier]⟩, fun
    | span, [.token token] => some (.node (.identifier token.lexeme span))
    | _, _ => none⟩,
   ⟨⟨.value, [t .leftParen, n .expression, t .rightParen]⟩, fun
    | span, [_, .node inner, _] => some (.node (inner.withSpan span))
    | _, _ => none⟩,
   ⟨⟨.value, [t .functionWord, t .leftParen, n .parameters, t .rightParen, t .leftBrace,
      n .statements, t .rightBrace]⟩, fun
    | span, [_, _, .names params, _, _, .nodes statements, _] =>
        some (.node (.function params (.block statements span) span span))
    | _, _ => none⟩,
   ⟨⟨.value, [n .object]⟩, pass⟩,
   ⟨⟨.value, [t .leftBracket, n .arguments, t .rightBracket]⟩, fun
    | span, [_, .nodes items, _] => some (.node (.array items span))
    | _, _ => none⟩,
   ⟨⟨.value, [t .coordX, t .leftParen, n .expression, t .rightParen]⟩, fun
    | span, [_, _, .node operand, _] => some (.node (.coordinate .x operand span))
    | _, _ => none⟩,
   ⟨⟨.value, [t .coordY, t .leftParen, n .expression, t .rightParen]⟩, fun
    | span, [_, _, .node operand, _] => some (.node (.coordinate .y operand span))
    | _, _ => none⟩]

open Rule in
/-- The rules of object literals and of lists. -/
def listRules : List Rule :=
  [⟨⟨.object, [t .objectOpen, n .properties, t .objectClose]⟩, fun
    | span, [_, .properties properties, _] => some (.node (.object properties span))
    | _, _ => none⟩,
   ⟨⟨.object, [t .objectOpen, t .objectClose]⟩, fun span _ => some (.node (.object [] span))⟩,
   ⟨⟨.properties, [n .properties, t .comma, t .identifier, t .colon, n .expression]⟩, fun
    | _, [.properties properties, _, .token name, _, .node value] =>
        some (.properties (properties ++ [.mk name.name value]))
    | _, _ => none⟩,
   ⟨⟨.properties, [t .identifier, t .colon, n .expression]⟩, fun
    | _, [.token name, _, .node value] => some (.properties [.mk name.name value])
    | _, _ => none⟩,
   ⟨⟨.arguments, []⟩, fun _ _ => some (.nodes [])⟩,
   ⟨⟨.arguments, [n .argumentList]⟩, pass⟩,
   ⟨⟨.argumentList, [n .argumentList, t .comma, n .expression]⟩, fun
    | _, [.nodes args, _, .node arg] => some (.nodes (args ++ [arg]))
    | _, _ => none⟩,
   ⟨⟨.argumentList, [n .expression]⟩, fun
    | _, [.node arg] => some (.nodes [arg])
    | _, _ => none⟩,
   ⟨⟨.parameters, []⟩, fun _ _ => some (.names [])⟩,
   ⟨⟨.parameters, [n .parameterList]⟩, pass⟩,
   ⟨⟨.parameterList, [n .parameterList, t .comma, t .identifier]⟩, fun
    | _, [.names params, _, .token name] => some (.names (params ++ [name.name]))
    | _, _ => none⟩,
   ⟨⟨.parameterList, [t .identifier]⟩, fun
    | _, [.token name] => some (.names [name.name])
    | _, _ => none⟩,
   ⟨⟨.propertyName, [t .identifier]⟩, fun
    | _, [.token name] => some (.name name.name)
    | _, _ => none⟩,
   ⟨⟨.propertyName, [t .coordX]⟩, fun
    | _, [.token name] => some (.name name.name)
    | _, _ => none⟩,
   ⟨⟨.propertyName, [t .coordY]⟩, fun
    | _, [.token name] => some (.name name.name)
    | _, _ => none⟩]

/-- The rules of the language, in order. -/
def rules : Array Rule := (statementRules ++ operatorRules ++ valueRules ++ listRules).toArray

/-- The productions of the language, in order. -/
def productions : List Production := rules.toList.map (·.production)

/-- The parse tables of the language. -/
def tables : Tables := Tables.ofProductions productions

end BoardScript
