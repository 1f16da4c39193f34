/-
What the rules build. Meanings have sorts, one for each symbol: a statement
is a node that is a statement, a list of parameters is a list of names.
Handed meanings of the sorts of its body, a rule builds one of the sort of
its head (`rules_sorted`), so that a derivation always has a meaning
(`Phrase.sorted`).

The sort of a node says more than its own form: every node below it has
children of the sorts that the grammar gives them, and every text in it is
one that a token of its kind can have (`Node.Proper`).
-/
import BoardScript.Proofs.Program.Derivation

namespace BoardScript

open Grammar

-- ================================================================== nodes

/-- Which texts the tokens of each kind may have. -/
abbrev Lexicon := TokenKind → String → Prop

/-- Any text will do. -/
def Lexicon.anything : Lexicon := fun _ _ => True

/-- A name behind a dot may also be one of the two coordinate words. -/
def Lexicon.PropertyName (lex : Lexicon) (text : String) : Prop :=
  lex .identifier text ∨ lex .coordX text ∨ lex .coordY text

/-- The kind of token that a numeral is. -/
def NumeralKind.token : NumeralKind → TokenKind
  | .integer => .integer
  | .float => .float

namespace Node

def isExpression (node : Node) : Bool := !node.isStatement

def isAssignment : Node → Bool
  | assign .. | assignProperty .. | assignIndex .. => true
  | _ => false

variable (lex : Lexicon)

/-- The nodes directly below are of the right sort, and so are the texts in
the node itself. -/
def Shaped : Node → Prop
  | block statements _ => ∀ node ∈ statements, node.isStatement = true
  | assign name value _ => lex .identifier name.text ∧ value.isExpression = true
  | assignProperty owner name value _ => owner.isExpression = true ∧
      lex.PropertyName name.text ∧ value.isExpression = true
  | assignIndex base place value _ => base.isExpression = true ∧ place.isExpression = true ∧
      value.isExpression = true
  | ifThen condition yes _ => condition.isExpression = true ∧ yes.isStatement = true
  | ifElse condition yes no _ => condition.isExpression = true ∧ yes.isStatement = true ∧
      no.isStatement = true
  | conditional condition yes no _ => condition.isExpression = true ∧ yes.isExpression = true ∧
      no.isExpression = true
  | whileLoop condition body _ => condition.isExpression = true ∧ body.isStatement = true
  | doLoop body condition _ => body.isStatement = true ∧ condition.isExpression = true
  | forLoop init condition step body _ => init.isAssignment = true ∧
      condition.isExpression = true ∧ step.isAssignment = true ∧ body.isStatement = true
  | useBoard name _ => lex .identifier name.text
  | delete node _ | returnValue node _ | expression node _ => node.isExpression = true
  | returnNothing _ => True
  | function params body _ _ => (∀ name ∈ params, lex .identifier name.text) ∧ body.isBlock = true
  | map params body _ _ => (∀ name ∈ params, lex .identifier name.text) ∧
      body.isExpression = true
  | call callee args _ => callee.isExpression = true ∧ ∀ arg ∈ args, arg.isExpression = true
  | callWith callee args attributes _ => callee.isExpression = true ∧
      (∀ arg ∈ args, arg.isExpression = true) ∧
      ∀ property ∈ attributes, lex .identifier property.name.text ∧
        property.value.isExpression = true
  | array items _ => ∀ item ∈ items, item.isExpression = true
  | object properties _ => ∀ property ∈ properties, lex .identifier property.name.text ∧
      property.value.isExpression = true
  | index base place _ => base.isExpression = true ∧ place.isExpression = true
  | binary _ left right _ => left.isExpression = true ∧ right.isExpression = true
  | unary _ operand _ | coordinate _ operand _ => operand.isExpression = true
  | identifier name _ => lex .identifier name
  | numeral text kind _ => lex kind.token text
  | string value _ => ∃ lexeme, lex .string lexeme ∧ value = Literal.value lexeme
  | boolean .. => True
  | property owner name _ => owner.isExpression = true ∧ lex.PropertyName name.text

/-- A node that is shaped all the way down. -/
inductive Proper : Node → Prop
  | intro {node : Node} (here : node.Shaped lex) (below : ∀ child ∈ node.children, Proper child) :
      Proper node

variable {lex}

theorem Proper.shaped {node : Node} : node.Proper lex → node.Shaped lex
  | .intro here _ => here

theorem Proper.child {node child : Node} : node.Proper lex → child ∈ node.children →
    child.Proper lex
  | .intro _ below, h => below child h

@[simp] theorem isStatement_withSpan (s : Span) (node : Node) :
    (node.withSpan s).isStatement = node.isStatement := by
  cases node <;> rfl

@[simp] theorem isExpression_withSpan (s : Span) (node : Node) :
    (node.withSpan s).isExpression = node.isExpression := by
  cases node <;> rfl

theorem Proper.withSpan {node : Node} (h : node.Proper lex) (s : Span) :
    (node.withSpan s).Proper lex := by
  obtain ⟨here, below⟩ := h
  cases node <;> exact ⟨here, below⟩

theorem isStatement_of_isAssignment {node : Node} (h : node.isAssignment = true) :
    node.isStatement = true := by
  cases node <;> first | rfl | cases h

end Node

-- ================================================================== sorts

/-- What a symbol stands for. Most nonterminals are expressions. -/
inductive Phrase.Sort where
  | token (kind : TokenKind)
  | program
  | statements
  | statement
  | assignment
  | target
  | expression
  | object
  | properties
  | arguments
  | parameters
  | propertyName

def Grammar.Symbol.sort : Symbol → Phrase.Sort
  | .terminal kind => .token kind
  | .nonTerminal .accept | .nonTerminal .program => .program
  | .nonTerminal .statements => .statements
  | .nonTerminal .statement => .statement
  | .nonTerminal .assignment => .assignment
  | .nonTerminal .target => .target
  | .nonTerminal .object => .object
  | .nonTerminal .properties => .properties
  | .nonTerminal .arguments | .nonTerminal .argumentList => .arguments
  | .nonTerminal .parameters | .nonTerminal .parameterList => .parameters
  | .nonTerminal .propertyName => .propertyName
  | .nonTerminal _ => .expression

/-- The parts of what an assignment writes to are proper. -/
def Target.Proper (lex : Lexicon) : Target → Prop
  | .variable name => lex .identifier name.text
  | .property owner name => (owner.isExpression = true ∧ lex.PropertyName name.text) ∧
      owner.Proper lex
  | .index base place => (base.isExpression = true ∧ place.isExpression = true) ∧
      base.Proper lex ∧ place.Proper lex

/-- The meanings of a sort. Of each node both its form and what lies below
it are known. -/
inductive Meaning.Sorted (lex : Lexicon) : Phrase.Sort → Meaning → Prop
  | token {kind : TokenKind} (t : Token) (hk : t.kind = kind) (h : lex kind t.lexeme) :
      Sorted lex (.token kind) (.token t)
  | program {x : Node} (h : x.isBlock = true) (hp : x.Proper lex) : Sorted lex .program (.node x)
  | statements {xs : List Node} (h : ∀ x ∈ xs, x.isStatement = true)
      (hp : ∀ x ∈ xs, x.Proper lex) : Sorted lex .statements (.nodes xs)
  | statement {x : Node} (h : x.isStatement = true) (hp : x.Proper lex) :
      Sorted lex .statement (.node x)
  | assignment {x : Node} (h : x.isAssignment = true) (hp : x.Proper lex) :
      Sorted lex .assignment (.node x)
  | target {x : Target} (h : x.Proper lex) : Sorted lex .target (.target x)
  | expression {x : Node} (h : x.isExpression = true) (hp : x.Proper lex) :
      Sorted lex .expression (.node x)
  | object {xs : List Property} {span : Span}
      (h : ∀ x ∈ xs, lex .identifier x.name.text ∧ x.value.isExpression = true)
      (hp : ∀ x ∈ xs, x.value.Proper lex) : Sorted lex .object (.node (.object xs span))
  | properties {xs : List Property}
      (h : ∀ x ∈ xs, lex .identifier x.name.text ∧ x.value.isExpression = true)
      (hp : ∀ x ∈ xs, x.value.Proper lex) : Sorted lex .properties (.properties xs)
  | arguments {xs : List Node} (h : ∀ x ∈ xs, x.isExpression = true)
      (hp : ∀ x ∈ xs, x.Proper lex) : Sorted lex .arguments (.nodes xs)
  | parameters {xs : List Name} (h : ∀ x ∈ xs, lex .identifier x.text) :
      Sorted lex .parameters (.names xs)
  | propertyName {x : Name} (h : lex.PropertyName x.text) : Sorted lex .propertyName (.name x)

/-- A rule builds what its head can be from what its body can be. -/
def Rule.Sorted (lex : Lexicon) (rule : Rule) : Prop :=
  ∀ span meanings,
    List.Forall₂ (fun symbol m => m.Sorted lex symbol.sort) rule.production.body meanings →
    ∃ m, rule.build span meanings = some m ∧
      m.Sorted lex (Symbol.nonTerminal rule.production.head).sort

theorem Target.sorted_assign {lex : Lexicon} {x : Target} (h : x.Proper lex) {value : Node}
    (he : value.isExpression = true) (hp : value.Proper lex) (span : Span) :
    Meaning.Sorted lex .assignment (.node (x.assign value span)) := by
  rcases x with name | ⟨owner, name⟩ | ⟨base, place⟩
  · exact .assignment rfl (.intro ⟨h, he⟩ (by simpa [Target.assign, Node.children] using hp))
  · obtain ⟨⟨ho, hn⟩, hop⟩ := h
    exact .assignment rfl
      (.intro ⟨ho, hn, he⟩ (by simpa [Target.assign, Node.children] using ⟨hop, hp⟩))
  · obtain ⟨⟨hb, hi⟩, hbp, hip⟩ := h
    exact .assignment rfl
      (.intro ⟨hb, hi, he⟩ (by simpa [Target.assign, Node.children] using ⟨hbp, hip, hp⟩))

-- Each list of rules is gone through rule by rule: the sorts of the body say
-- what the meanings are, so the rule builds, and the facts about the parts
-- are those that the node built asks for.

theorem statementRules_sorted (lex : Lexicon) : ∀ rule ∈ statementRules, rule.Sorted lex := by
  intro rule h
  simp only [statementRules, List.mem_cons, List.not_mem_nil, or_false] at h
  rcases h with rfl | rfl | rfl | rfl | rfl | rfl | rfl | rfl | rfl | rfl | rfl | rfl | rfl | rfl |
    rfl | rfl | rfl | rfl | rfl | rfl | rfl
  all_goals
    intro span meanings hm
    repeat
      rcases hm with _ | ⟨h, hm⟩
      cases h
    cases hm
    refine ⟨_, rfl, ?_⟩
  all_goals first
    | exact .program ‹_› ‹_›
    | exact .program rfl (.intro ‹_› ‹_›)
    | exact .statement (Node.isStatement_of_isAssignment ‹_›) ‹_›
    | exact Target.sorted_assign ‹_› ‹_› ‹_› span
    | refine .statements ?_ ?_ <;> simp_all [or_imp]
    | refine .target ?_; simp_all [Target.Proper, Token.name]
    | refine .statement rfl (.intro ?_ ?_)
      · and_intros <;> first | assumption | trivial | simp [Node.Shaped]
      · simp_all [Node.children]

theorem operatorRules_sorted (lex : Lexicon) : ∀ rule ∈ operatorRules, rule.Sorted lex := by
  intro rule h
  simp only [operatorRules, List.mem_cons, List.not_mem_nil, or_false] at h
  rcases h with rfl | rfl | rfl | rfl | rfl | rfl | rfl | rfl | rfl | rfl | rfl | rfl | rfl | rfl |
    rfl | rfl | rfl | rfl | rfl | rfl | rfl | rfl | rfl | rfl | rfl | rfl | rfl | rfl
  all_goals
    intro span meanings hm
    repeat
      rcases hm with _ | ⟨h, hm⟩
      cases h
    cases hm
    refine ⟨_, rfl, ?_⟩
  all_goals first
    | exact .expression ‹_› ‹_›
    | refine .expression rfl (.intro ?_ ?_)
      · and_intros <;> assumption
      · simpa [Node.children] using And.intro ‹_› ‹_›
    | exact .expression (by simpa using ‹_›) (‹Node.Proper lex _›.withSpan span)
    | refine .expression rfl (.intro ?_ ?_)
      · and_intros <;> assumption
      · simp_all [Node.children]

theorem valueRules_sorted (lex : Lexicon) : ∀ rule ∈ valueRules, rule.Sorted lex := by
  intro rule h
  simp only [valueRules, List.mem_cons, List.not_mem_nil, or_false] at h
  rcases h with rfl | rfl | rfl | rfl | rfl | rfl | rfl | rfl | rfl | rfl | rfl | rfl | rfl | rfl |
    rfl | rfl | rfl
  all_goals
    intro span meanings hm
    repeat
      rcases hm with _ | ⟨h, hm⟩
      cases h
    cases hm
    refine ⟨_, rfl, ?_⟩
  all_goals first
    | exact .expression ‹_› ‹_›
    | exact .expression (by simpa using ‹_›) (‹Node.Proper lex _›.withSpan span)
    | refine .expression rfl (.intro ?_ ?_)
      · and_intros <;> first | assumption | trivial | exact ⟨_, ‹_›, rfl⟩
      · simp_all [Node.children, or_imp]
    | exact .expression rfl
        (.intro ⟨‹_›, rfl⟩ (List.forall_mem_singleton.2 (.intro ‹_› ‹_›)))

theorem listRules_sorted (lex : Lexicon) : ∀ rule ∈ listRules, rule.Sorted lex := by
  intro rule h
  simp only [listRules, List.mem_cons, List.not_mem_nil, or_false] at h
  rcases h with rfl | rfl | rfl | rfl | rfl | rfl | rfl | rfl | rfl | rfl | rfl | rfl | rfl | rfl |
    rfl
  all_goals
    intro span meanings hm
    repeat
      rcases hm with _ | ⟨h, hm⟩
      cases h
    cases hm
    refine ⟨_, rfl, ?_⟩
  all_goals first
    | exact .object ‹_› ‹_›
    | exact .arguments ‹_› ‹_›
    | exact .parameters ‹_›
    | refine .object ?_ ?_ <;> simp
    | refine .properties ?_ ?_ <;> simp_all [or_imp, Property.name, Property.value, Token.name]
    | refine .arguments ?_ ?_ <;> simp_all [or_imp]
    | refine .parameters ?_; simp_all [or_imp, Token.name]
    | refine .propertyName ?_; simp_all [Lexicon.PropertyName, Token.name]

/-- Every rule builds what its head can be from what its body can be. -/
theorem rules_sorted (lex : Lexicon) {index : Nat} {rule : Rule}
    (h : rules[index]? = some rule) : rule.Sorted lex := by
  rcases mem_rules h with h | h | h | h
  · exact statementRules_sorted lex rule h
  · exact operatorRules_sorted lex rule h
  · exact valueRules_sorted lex rule h
  · exact listRules_sorted lex rule h

mutual

/-- A derivation has a meaning, of the sort of its symbol. -/
theorem Phrase.sorted {lex : Lexicon} {symbol : Symbol} (next : Nat) : (d : Phrase symbol) →
    (∀ token ∈ d.tokens, lex token.kind token.lexeme) →
    ∃ m, d.meaning next = some m ∧ m.Sorted lex symbol.sort
  | .token token => fun h =>
      ⟨.token token, rfl, .token token rfl (h token (by simp [Phrase.tokens]))⟩
  | .node _ hrule parts => fun h => by
      obtain ⟨ms, hms, hsorted⟩ := parts.sorted next h
      obtain ⟨m, hm, hs⟩ := rules_sorted lex hrule _ ms hsorted
      exact ⟨m, by rw [Phrase.meaning, hms]; exact hm, hs⟩

theorem Phrases.sorted {lex : Lexicon} {symbols : List Symbol} (next : Nat) :
    (ds : Phrases symbols) → (∀ token ∈ ds.tokens, lex token.kind token.lexeme) →
    ∃ ms, ds.meanings next = some ms ∧
      List.Forall₂ (fun symbol m => m.Sorted lex symbol.sort) symbols ms
  | .nil => fun _ => ⟨[], rfl, .nil⟩
  | .cons first others => fun h => by
      obtain ⟨m, hm, hs⟩ := first.sorted (startOf next others.tokens) fun token ht =>
        h token (by simp [Phrases.tokens, ht])
      obtain ⟨ms, hms, hss⟩ := others.sorted next fun token ht =>
        h token (by simp [Phrases.tokens, ht])
      exact ⟨m :: ms, by rw [Phrases.meanings, hm, hms]; rfl, .cons hs hss⟩

end

theorem Phrase.exists_meaning {symbol : Symbol} (d : Phrase symbol) (next : Nat) :
    ∃ m, d.meaning next = some m := by
  have hlex : ∀ token ∈ d.tokens, Lexicon.anything token.kind token.lexeme := fun _ _ => trivial
  obtain ⟨m, hm, -⟩ := d.sorted next hlex
  exact ⟨m, hm⟩

end BoardScript
