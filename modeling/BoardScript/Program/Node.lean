/-
Programs as trees. Statements and expressions are one type of node, and
every node knows the span of text it was read from. The span is the last
field of each constructor; parentheses and a unary plus leave no node of
their own and only widen the span of what they surround.

A function or map literal keeps, beside its node's span, the span of the
literal itself.
-/
import BoardScript.Text.Span

namespace BoardScript

/-- A name with the span where it stands. -/
structure Name where
  text : String
  span : Span
deriving Repr, DecidableEq, Inhabited

/-- A coordinate axis. -/
inductive Axis where
  | x
  | y
deriving Repr, DecidableEq, Inhabited

def Axis.text : Axis → String
  | .x => "X"
  | .y => "Y"

/-- Whether a numeral has a fraction. -/
inductive NumeralKind where
  | integer
  | float
deriving Repr, DecidableEq, Inhabited

/-- Operators between two operands. -/
inductive BinaryOperator where
  | equal
  | notEqual
  | approx
  | less
  | greater
  | lessEqual
  | greaterEqual
  | add
  | subtract
  | multiply
  | divide
  | modulo
  | power
  | and
  | or
deriving Repr, DecidableEq, Inhabited

namespace BinaryOperator

def text : BinaryOperator → String
  | equal => "=="
  | notEqual => "!="
  | approx => "~="
  | less => "<"
  | greater => ">"
  | lessEqual => "<="
  | greaterEqual => ">="
  | add => "+"
  | subtract => "-"
  | multiply => "*"
  | divide => "/"
  | modulo => "%"
  | power => "^"
  | and => "&&"
  | or => "||"

/-- Every operator, in declaration order. -/
def all : List BinaryOperator :=
  [equal, notEqual, approx, less, greater, lessEqual, greaterEqual, add, subtract,
   multiply, divide, modulo, power, and, or]

end BinaryOperator

/-- Operators in front of one operand. -/
inductive UnaryOperator where
  | negate
  | not
deriving Repr, DecidableEq, Inhabited

def UnaryOperator.text : UnaryOperator → String
  | .negate => "-"
  | .not => "!"

mutual

/-- A statement or an expression. -/
inductive Node where
  | block (statements : List Node) (span : Span)
  | assign (name : Name) (value : Node) (span : Span)
  | assignProperty (object : Node) (name : Name) (value : Node) (span : Span)
  | assignIndex (base : Node) (index : Node) (value : Node) (span : Span)
  | ifThen (condition : Node) (yes : Node) (span : Span)
  | ifElse (condition : Node) (yes : Node) (no : Node) (span : Span)
  | conditional (condition : Node) (yes : Node) (no : Node) (span : Span)
  | whileLoop (condition : Node) (body : Node) (span : Span)
  | doLoop (body : Node) (condition : Node) (span : Span)
  | forLoop (init : Node) (condition : Node) (step : Node) (body : Node) (span : Span)
  | useBoard (name : Name) (span : Span)
  | delete (operand : Node) (span : Span)
  | returnNothing (span : Span)
  | returnValue (value : Node) (span : Span)
  | expression (value : Node) (span : Span)
  | function (params : List Name) (body : Node) (literal : Span) (span : Span)
  | map (params : List Name) (body : Node) (literal : Span) (span : Span)
  | call (callee : Node) (args : List Node) (span : Span)
  | callWith (callee : Node) (args : List Node) (attributes : List Property) (span : Span)
  | array (items : List Node) (span : Span)
  | object (properties : List Property) (span : Span)
  | index (base : Node) (index : Node) (span : Span)
  | binary (operator : BinaryOperator) (left : Node) (right : Node) (span : Span)
  | unary (operator : UnaryOperator) (operand : Node) (span : Span)
  | identifier (name : String) (span : Span)
  | numeral (text : String) (kind : NumeralKind) (span : Span)
  | string (value : String) (span : Span)
  | boolean (value : Bool) (span : Span)
  | coordinate (axis : Axis) (operand : Node) (span : Span)
  | property (object : Node) (name : Name) (span : Span)

/-- A named value of an object literal or of a call's attributes. -/
inductive Property where
  | mk (name : Name) (value : Node)

end

instance : Inhabited Node := ⟨.block [] default⟩

def Property.name : Property → Name
  | .mk name _ => name

def Property.value : Property → Node
  | .mk _ value => value

namespace Node

/-- The text a node was read from. -/
def span : Node → Span
  | block _ s | assign _ _ s | assignProperty _ _ _ s | assignIndex _ _ _ s
  | ifThen _ _ s | ifElse _ _ _ s | conditional _ _ _ s | whileLoop _ _ s
  | doLoop _ _ s | forLoop _ _ _ _ s | useBoard _ s | delete _ s | returnNothing s
  | returnValue _ s | expression _ s | function _ _ _ s | map _ _ _ s | call _ _ s
  | callWith _ _ _ s | array _ s | object _ s | index _ _ s | binary _ _ _ s
  | unary _ _ s | identifier _ s | numeral _ _ s | string _ s | boolean _ s
  | coordinate _ _ s | property _ _ s => s

/-- The same node read from another span. -/
def withSpan (s : Span) : Node → Node
  | block a _ => block a s
  | assign a b _ => assign a b s
  | assignProperty a b c _ => assignProperty a b c s
  | assignIndex a b c _ => assignIndex a b c s
  | ifThen a b _ => ifThen a b s
  | ifElse a b c _ => ifElse a b c s
  | conditional a b c _ => conditional a b c s
  | whileLoop a b _ => whileLoop a b s
  | doLoop a b _ => doLoop a b s
  | forLoop a b c d _ => forLoop a b c d s
  | useBoard a _ => useBoard a s
  | delete a _ => delete a s
  | returnNothing _ => returnNothing s
  | returnValue a _ => returnValue a s
  | expression a _ => expression a s
  | function a b c _ => function a b c s
  | map a b c _ => map a b c s
  | call a b _ => call a b s
  | callWith a b c _ => callWith a b c s
  | array a _ => array a s
  | object a _ => object a s
  | index a b _ => index a b s
  | binary a b c _ => binary a b c s
  | unary a b _ => unary a b s
  | identifier a _ => identifier a s
  | numeral a b _ => numeral a b s
  | string a _ => string a s
  | boolean a _ => boolean a s
  | coordinate a b _ => coordinate a b s
  | property a b _ => property a b s

/-- A short name for the form of a node. -/
def tag : Node → String
  | block .. => "statements"
  | assign .. | assignProperty .. | assignIndex .. => "assign"
  | ifThen .. => "if"
  | ifElse .. => "if-else"
  | conditional .. => "conditional"
  | whileLoop .. => "while"
  | doLoop .. => "do"
  | forLoop .. => "for"
  | useBoard .. => "use"
  | delete .. => "delete"
  | returnNothing .. | returnValue .. => "return"
  | expression .. => "expression"
  | function .. => "function"
  | map .. => "map"
  | call .. | callWith .. => "call"
  | array .. => "array"
  | object .. => "object"
  | index .. => "index"
  | binary .. => "binary"
  | unary .. => "unary"
  | identifier .. => "identifier"
  | numeral _ .integer _ => "Integer"
  | numeral _ .float _ => "Float"
  | string .. => "string"
  | boolean .. => "boolean"
  | coordinate .. => "coordinate"
  | property .. => "property"

/-- The nodes directly below a node, in the order in which they stand in
the text. -/
def children : Node → List Node
  | block nodes _ | array nodes _ => nodes
  | assign _ value _ => [value]
  | assignProperty owner _ value _ => [owner, value]
  | assignIndex base place value _ => [base, place, value]
  | ifThen condition yes _ => [condition, yes]
  | ifElse condition yes no _ | conditional condition yes no _ => [condition, yes, no]
  | whileLoop condition body _ => [condition, body]
  | doLoop body condition _ => [body, condition]
  | forLoop init condition step body _ => [init, condition, step, body]
  | useBoard .. | returnNothing .. => []
  | delete node _ | returnValue node _ | expression node _ => [node]
  | function _ body _ _ | map _ body _ _ => [body]
  | call callee args _ => callee :: args
  | callWith callee args attributes _ => callee :: args ++ attributes.map Property.value
  | object properties _ => properties.map Property.value
  | index base place _ => [base, place]
  | binary _ left right _ => [left, right]
  | unary _ operand _ => [operand]
  | identifier .. | numeral .. | string .. | boolean .. => []
  | coordinate _ operand _ => [operand]
  | property owner _ _ => [owner]

/-- The statements of a block; any other node counts as the one statement
it is. -/
def statements : Node → List Node
  | block nodes _ => nodes
  | node => [node]

def isBlock : Node → Bool
  | block .. => true
  | _ => false

/-- Whether a node is a statement rather than an expression. -/
def isStatement : Node → Bool
  | block .. | assign .. | assignProperty .. | assignIndex .. | ifThen .. | ifElse ..
  | whileLoop .. | doLoop .. | forLoop .. | useBoard .. | delete .. | returnNothing ..
  | returnValue .. | expression .. => true
  | _ => false

/-- The name, if the node is nothing but a name. -/
def name? : Node → Option String
  | identifier name _ => some name
  | _ => none

/-- A node is larger than those directly below it. -/
theorem child_lt {child node : Node} (h : child ∈ node.children) : sizeOf child < sizeOf node := by
  have inList : ∀ {nodes : List Node}, child ∈ nodes → sizeOf child < sizeOf nodes :=
    List.sizeOf_lt_of_mem
  have inProperties : ∀ {properties : List Property}, child ∈ properties.map Property.value →
      sizeOf child < sizeOf properties := by
    intro properties h
    obtain ⟨⟨name, value⟩, member, rfl⟩ := List.mem_map.1 h
    have := List.sizeOf_lt_of_mem member
    simp only [Property.mk.sizeOf_spec, Property.value] at this ⊢
    omega
  cases node <;> simp [children, -List.mem_map] at h ⊢ <;> grind

/-- A node and all below it, each before its children. -/
def preorder (node : Node) : List Node :=
  node :: node.children.attach.flatMap fun ⟨child, _⟩ => child.preorder
termination_by sizeOf node
decreasing_by exact child_lt ‹_›

end Node

/-- A function or map literal, apart from the node that holds it. -/
structure FunctionLiteral where
  isMap : Bool
  params : List Name
  body : Node
  span : Span

instance : Inhabited FunctionLiteral := ⟨⟨false, [], default, default⟩⟩

end BoardScript
