/-
Reading again what was written out. What the rules build along a phrase
does not depend on where its tokens stand (`Phrase.bare_meaning`), so it
can be told from words. The words of a node are those of a phrase that
means the node again, with braces around its bodies (`Node.Proper.rereads`):
an expression is written so that it can stand in front of a dot or a
bracket, and a body so that no `else` behind it can belong to an `if`
inside.
-/
import BoardScript.Proofs.Program.Else
import BoardScript.Proofs.Program.Grammatical
import BoardScript.Proofs.Program.Moved
import BoardScript.Proofs.Program.Words

namespace BoardScript

open Grammar

-- ============================================================ bare meanings

/-- No place. -/
def nowhere (_ : Span) : Span := default

@[simp] theorem nowhere_eq (s : Span) : nowhere s = default := rfl

/-- The tree without its places. -/
def Node.bare (node : Node) : Node := node.recast nowhere false

/-- The tree without its places, with a block for each body. -/
def Node.braced (node : Node) : Node := node.recast nowhere true

def Token.bare (token : Token) : Token := ⟨token.kind, token.lexeme, default, default⟩

def Target.bare : Target → Target
  | .variable name => .variable (name.recast nowhere)
  | .property owner name => .property owner.bare (name.recast nowhere)
  | .index base place => .index base.bare place.bare

/-- What a symbol stands for, without places. -/
def Meaning.bare : Meaning → Meaning
  | .token x => .token x.bare
  | .node x => .node x.bare
  | .nodes xs => .nodes (xs.map Node.bare)
  | .names xs => .names (xs.map (Name.recast nowhere))
  | .properties xs => .properties (xs.map (Property.recast nowhere false))
  | .name x => .name (x.recast nowhere)
  | .target x => .target x.bare

theorem Meaning.bare_eq_moved : Meaning.bare = Meaning.moved nowhere fun _ => default := by
  funext m
  cases m with
  | target x => cases x <;> rfl
  | _ => rfl

mutual

/-- What the rules build along a phrase, without places. -/
def Phrase.gist {symbol : Symbol} : Phrase symbol → Option Meaning
  | .token token => some (.token token.bare)
  | @Phrase.node _ rule _ parts => parts.gists.bind (rule.build default)

def Phrases.gists {symbols : List Symbol} : Phrases symbols → Option (List Meaning)
  | .nil => some []
  | .cons first others => first.gist.bind fun m => others.gists.map (m :: ·)

end

mutual

/-- What a phrase means does not depend on its place. -/
theorem Phrase.bare_meaning {symbol : Symbol} (next : Nat) : (d : Phrase symbol) →
    (d.meaning next).map Meaning.bare = d.gist
  | .token _ => rfl
  | .node _ hrule parts => by
      have hparts := parts.bare_meanings next
      have hlex : ∀ token ∈ parts.tokens, Lexicon.anything token.kind token.lexeme :=
        fun _ _ => trivial
      obtain ⟨ms, hms, hsorted⟩ := parts.sorted next hlex
      rw [hms, Option.map_some] at hparts
      rw [Phrase.meaning, Phrase.gist, hms, ← hparts, Meaning.bare_eq_moved]
      exact rules_movable nowhere _ hrule _ ms hsorted

theorem Phrases.bare_meanings {symbols : List Symbol} (next : Nat) : (ds : Phrases symbols) →
    (ds.meanings next).map (List.map Meaning.bare) = ds.gists
  | .nil => rfl
  | .cons first others => by
      rw [Phrases.meanings, Phrases.gists, ← first.bare_meaning (startOf next others.tokens),
        ← others.bare_meanings next]
      cases first.meaning (startOf next others.tokens) with
      | none => rfl
      | some m => cases others.meanings next <;> rfl

end

-- ================================================================= reading

/-- Tokens with these words are those of a phrase that means this. -/
def Reads (symbol : Symbol) (words : List Word) (want : Meaning) : Prop :=
  ∀ tokens : List Token, tokens.map Token.word = words →
    ∃ d : Phrase symbol, d.tokens = tokens ∧ d.Nearest ∧ d.gist = some want

def ReadsAll (symbols : List Symbol) (words : List Word) (wants : List Meaning) : Prop :=
  ∀ tokens : List Token, tokens.map Token.word = words →
    ∃ ds : Phrases symbols, ds.tokens = tokens ∧ ds.Nearest ∧ ds.gists = some wants

/-- The token of a kind and a text, at no place. -/
def bareToken (kind : TokenKind) (text : String) : Meaning :=
  .token ⟨kind, text, default, default⟩

theorem Reads.token (kind : TokenKind) (text : String) :
    Reads (.terminal kind) [(kind, text)] (bareToken kind text) := by
  intro tokens h
  obtain ⟨token, rfl, hword⟩ := List.map_eq_singleton_iff.1 h
  obtain ⟨rfl, rfl⟩ := Prod.mk.inj hword
  exact ⟨.token token, rfl, trivial, rfl⟩

namespace ReadsAll

theorem nil : ReadsAll [] [] [] := by
  intro tokens h
  exact ⟨.nil, (List.map_eq_nil_iff.1 h).symm, trivial, rfl⟩

theorem cons {symbol : Symbol} {symbols : List Symbol} {words others : List Word} {want : Meaning}
    {wants : List Meaning} (hfirst : Reads symbol words want)
    (hothers : ReadsAll symbols others wants) :
    ReadsAll (symbol :: symbols) (words ++ others) (want :: wants) := by
  intro tokens h
  obtain ⟨front, back, rfl, hfront, hback⟩ := List.map_eq_append_iff.1 h
  obtain ⟨d, rfl, hnear, hgist⟩ := hfirst front hfront
  obtain ⟨ds, rfl, hnears, hgists⟩ := hothers back hback
  exact ⟨.cons d ds, rfl, ⟨hnear, hnears⟩, by rw [Phrases.gists, hgist, hgists]; rfl⟩

theorem token {kind : TokenKind} {text : String} {symbols : List Symbol} {others : List Word}
    {wants : List Meaning} (hothers : ReadsAll symbols others wants) :
    ReadsAll (.terminal kind :: symbols) ((kind, text) :: others)
      (bareToken kind text :: wants) :=
  cons (.token kind text) hothers

theorem last {symbol : Symbol} {words : List Word} {want : Meaning} (h : Reads symbol words want) :
    ReadsAll [symbol] words [want] := by
  simpa using cons h nil

end ReadsAll

/-- Reading by a rule. -/
theorem Reads.node (index : Nat) {rule : Rule} (hrule : rules[index]? = some rule)
    (hne : index ≠ ifElseRule) {words : List Word} {wants : List Meaning} {want : Meaning}
    (hparts : ReadsAll rule.production.body words wants)
    (hbuild : rule.build default wants = some want) :
    Reads (.nonTerminal rule.production.head) words want := by
  intro tokens h
  obtain ⟨ds, htokens, hnear, hgists⟩ := hparts tokens h
  refine ⟨.node index hrule ds, htokens, ⟨fun h => absurd h hne, hnear⟩, ?_⟩
  rw [Phrase.gist, hgists]
  exact hbuild

-- ============================================================== expressions

namespace Reads

variable {words : List Word} {want : Meaning}

/-- A rule that passes on what its one symbol means. -/
theorem pass (index : Nat) {head : NonTerminal} {symbol : Symbol}
    (hrule : rules[index]? = some ⟨⟨head, [symbol]⟩, Rule.pass⟩) (hne : index ≠ ifElseRule)
    (h : Reads symbol words want) : Reads (.nonTerminal head) words want := by
  exact node index hrule hne (.last h) rfl

-- From the tightest expressions to the loosest.

theorem power (h : Reads (.nonTerminal .access) words want) :
    Reads (.nonTerminal .power) words want := pass 48 rfl (by decide) h

theorem unary (h : Reads (.nonTerminal .power) words want) :
    Reads (.nonTerminal .unary) words want := pass 46 rfl (by decide) h

theorem product (h : Reads (.nonTerminal .unary) words want) :
    Reads (.nonTerminal .product) words want := pass 42 rfl (by decide) h

theorem sum (h : Reads (.nonTerminal .product) words want) :
    Reads (.nonTerminal .sum) words want := pass 38 rfl (by decide) h

theorem comparison (h : Reads (.nonTerminal .sum) words want) :
    Reads (.nonTerminal .comparison) words want := pass 35 rfl (by decide) h

theorem conjunction (h : Reads (.nonTerminal .comparison) words want) :
    Reads (.nonTerminal .conjunction) words want := pass 27 rfl (by decide) h

theorem disjunction (h : Reads (.nonTerminal .conjunction) words want) :
    Reads (.nonTerminal .disjunction) words want := pass 25 rfl (by decide) h

theorem expression (h : Reads (.nonTerminal .disjunction) words want) :
    Reads (.nonTerminal .expression) words want := pass 21 rfl (by decide) h

end Reads

theorem Node.withSpan_braced (node : Node) : node.braced.withSpan default = node.braced := by
  cases node <;> rfl

/-- An expression in parentheses can stand anywhere. -/
theorem Reads.parens {node : Node} {words : List Word}
    (h : Reads (.nonTerminal .expression) words (.node node.braced)) :
    Reads (.nonTerminal .access) (Word.parens words) (.node node.braced) := by
  have hvalue : Reads (.nonTerminal .value) (Word.parens words) (.node node.braced) :=
    .node 60 rfl (by decide) (.token (.cons h (.token .nil)))
      (congrArg (fun n => some (Meaning.node n)) node.withSpan_braced)
  exact pass 53 rfl (by decide) hvalue

-- =================================================================== lists

/-- A list that is read item by item. -/
theorem Reads.extend {α : Type} {symbol : Symbol} (item : α → List Word) (tell : List α → Meaning)
    {more : List α}
    (hstep : ∀ x ∈ more, ∀ words xs, Reads symbol words (tell xs) →
      Reads symbol (words ++ item x) (tell (xs ++ [x])))
    {words : List Word} {xs : List α} (h : Reads symbol words (tell xs)) :
    Reads symbol (words ++ more.flatMap item) (tell (xs ++ more)) := by
  induction more generalizing words xs with
  | nil => simpa using h
  | cons x more ih =>
      have hnext := hstep x List.mem_cons_self words xs h
      have hrest := ih (fun y hy => hstep y (List.mem_cons_of_mem _ hy)) hnext
      simpa using hrest

theorem wordsList_cons (node : Node) (nodes : List Node) :
    wordsList (node :: nodes)
      = node.words ++ nodes.flatMap fun node => (.comma, ",") :: node.words := by
  induction nodes generalizing node with
  | nil => simp [wordsList]
  | cons next nodes ih => simp [wordsList, ih]

theorem Word.names_cons (n : Name) (params : List Name) :
    names (n :: params) = name n.text :: params.flatMap fun n => [(.comma, ","), name n.text] := by
  induction params generalizing n with
  | nil => simp [names]
  | cons next params ih => simp [names, ih]

/-- The words of one property. -/
def Property.words (p : Property) : List Word :=
  Word.name p.name.text :: (.colon, ":") :: p.value.words

theorem wordsProperties_cons (p : Property) (properties : List Property) :
    wordsProperties (p :: properties)
      = p.words ++ properties.flatMap fun p => (.comma, ",") :: p.words := by
  induction properties generalizing p with
  | nil =>
      obtain ⟨n, value⟩ := p
      simp [wordsProperties, Property.words, Property.name, Property.value]
  | cons next properties ih =>
      obtain ⟨n, value⟩ := p
      simp [wordsProperties, ih, Property.words, Property.name, Property.value]

theorem wordsLines_eq_flatMap (nodes : List Node) :
    wordsLines nodes = nodes.flatMap fun node => node.words ++ Word.mark node := by
  induction nodes with
  | nil => rfl
  | cons node nodes ih => simp [wordsLines, ih]

theorem reads_statements {nodes : List Node}
    (h : ∀ node ∈ nodes,
      Reads (.nonTerminal .statement) (node.words ++ Word.mark node) (.node node.braced)) :
    Reads (.nonTerminal .statements) (wordsLines nodes) (.nodes (nodes.map Node.braced)) := by
  have hnil : Reads (.nonTerminal .statements) [] (.nodes ([].map Node.braced)) :=
    .node 3 rfl (by decide) .nil rfl
  rw [wordsLines_eq_flatMap]
  refine Reads.extend _ (fun xs => .nodes (xs.map Node.braced)) ?_ hnil
  intro node hnode words xs hxs
  refine .node 2 rfl (by decide) (.cons hxs (.last (h node hnode))) ?_
  rw [List.map_append]
  rfl

theorem reads_arguments {nodes : List Node}
    (h : ∀ node ∈ nodes, Reads (.nonTerminal .expression) node.words (.node node.braced)) :
    Reads (.nonTerminal .arguments) (wordsList nodes) (.nodes (nodes.map Node.braced)) := by
  cases nodes with
  | nil => exact .node 70 rfl (by decide) .nil rfl
  | cons first more =>
      have hfirst : Reads (.nonTerminal .argumentList) first.words
          (.nodes ([first].map Node.braced)) :=
        .node 73 rfl (by decide) (.last (h first List.mem_cons_self)) rfl
      rw [wordsList_cons]
      refine .pass 71 rfl (by decide)
        (.extend _ (fun xs => .nodes (xs.map Node.braced)) ?_ hfirst)
      intro node hnode words xs hxs
      have harg := h node (List.mem_cons_of_mem _ hnode)
      refine .node 72 rfl (by decide) (.cons hxs (.token (.last harg))) ?_
      rw [List.map_append]
      rfl

theorem ofWord_of_lexical {text : String} (h : Lexical .identifier text) :
    Word.name text = (.identifier, text) := by
  rw [Word.name, (h.name (.inl rfl)).1]

theorem reads_parameters {params : List Name} (h : ∀ n ∈ params, Lexical .identifier n.text) :
    Reads (.nonTerminal .parameters) (Word.names params)
      (.names (params.map (Name.recast nowhere))) := by
  cases params with
  | nil => exact .node 74 rfl (by decide) .nil rfl
  | cons first more =>
      have hfirst : Reads (.nonTerminal .parameterList) [Word.name first.text]
          (.names ([first].map (Name.recast nowhere))) := by
        rw [ofWord_of_lexical (h first List.mem_cons_self)]
        exact .node 77 rfl (by decide) (.token .nil) rfl
      rw [Word.names_cons]
      refine .pass 75 rfl (by decide)
        (.extend _ (fun xs => .names (xs.map (Name.recast nowhere))) ?_ hfirst)
      intro n hn words xs hxs
      rw [ofWord_of_lexical (h n (List.mem_cons_of_mem _ hn))]
      refine .node 76 rfl (by decide) (.cons hxs (.token (.token .nil))) ?_
      rw [List.map_append]
      rfl

theorem reads_object {properties : List Property}
    (h : ∀ p ∈ properties, Lexical .identifier p.name.text ∧
      Reads (.nonTerminal .expression) p.value.words (.node p.value.braced)) :
    Reads (.nonTerminal .object) (Word.object (wordsProperties properties))
      (.node (.object (properties.map (Property.recast nowhere true)) default)) := by
  cases properties with
  | nil => exact .node 67 rfl (by decide) (.token (.token .nil)) rfl
  | cons first more =>
      have hfirst : Reads (.nonTerminal .properties) first.words
          (.properties ([first].map (Property.recast nowhere true))) := by
        obtain ⟨hname, hvalue⟩ := h first List.mem_cons_self
        rw [Property.words, ofWord_of_lexical hname]
        exact .node 69 rfl (by decide) (.token (.token (.last hvalue))) rfl
      have hall : Reads (.nonTerminal .properties) (wordsProperties (first :: more))
          (.properties ((first :: more).map (Property.recast nowhere true))) := by
        rw [wordsProperties_cons]
        refine .extend _ (fun xs => .properties (xs.map (Property.recast nowhere true))) ?_ hfirst
        intro p hp words xs hxs
        obtain ⟨hname, hvalue⟩ := h p (List.mem_cons_of_mem _ hp)
        rw [Property.words, ofWord_of_lexical hname]
        refine .node 68 rfl (by decide) (.cons hxs (.token (.token (.token (.last hvalue))))) ?_
        rw [List.map_append]
        rfl
      exact .node 66 rfl (by decide) (.token (.cons hall (.token .nil))) rfl

-- =================================================================== nodes

/-- The words of a node are read as the node, wherever it may stand. -/
structure Node.Rereads (node : Node) : Prop where
  expression : node.isExpression = true →
    Reads (.nonTerminal .access) node.words (.node node.braced)
  assignment : node.isAssignment = true →
    Reads (.nonTerminal .assignment) node.words (.node node.braced)
  statement : node.isStatement = true →
    Reads (.nonTerminal .statement) (node.words ++ Word.mark node) (.node node.braced)
  lines : node.isStatement = true →
    Reads (.nonTerminal .statements) (wordsLines node.statements)
      (.nodes (node.statements.map Node.braced))

/-- An expression can stand where any expression can. -/
theorem Node.Rereads.loose {node : Node} (h : node.Rereads) (he : node.isExpression = true) :
    Reads (.nonTerminal .expression) node.words (.node node.braced) :=
  (h.expression he).power.unary.product.sum.comparison.conjunction.disjunction.expression

theorem reads_value {words : List Word} {want : Meaning}
    (h : Reads (.nonTerminal .value) words want) : Reads (.nonTerminal .access) words want :=
  .pass 53 rfl (by decide) h

theorem reads_propertyName {text : String} (h : Lexicon.PropertyName Lexical text) :
    Reads (.nonTerminal .propertyName) [Word.name text] (.name ⟨text, default⟩) := by
  rcases h with h | h | h
  · rw [Word.name, (h.name (.inl rfl)).1]
    exact .node 78 rfl (by decide) (.token .nil) rfl
  · rw [Word.name, (h.name (.inr (.inl rfl))).1]
    exact .node 79 rfl (by decide) (.token .nil) rfl
  · rw [Word.name, (h.name (.inr (.inr rfl))).1]
    exact .node 80 rfl (by decide) (.token .nil) rfl

/-- An operator between two expressions. -/
theorem reads_binary (operator : BinaryOperator) {left right : Node} (span : Span)
    (hleft : Reads (.nonTerminal .access) left.words (.node left.braced))
    (hright : Reads (.nonTerminal .access) right.words (.node right.braced)) :
    Reads (.nonTerminal .expression)
      (left.words ++ (operator.token, operator.text) :: right.words)
      (.node (Node.binary operator left right span).braced) := by
  have hproduct := hleft.power.unary.product
  have hsum := hproduct.sum
  have hcomparison := hsum.comparison
  have hunary := hright.power.unary
  have hfactor := hunary.product
  have hterm := hfactor.sum
  have comparing {words : List Word} {want : Meaning}
      (h : Reads (.nonTerminal .comparison) words want) :
      Reads (.nonTerminal .expression) words want := h.conjunction.disjunction.expression
  cases operator with
  | or =>
      exact (Reads.node 24 rfl (by decide)
        (.cons hcomparison.conjunction.disjunction (.token (.last hterm.comparison.conjunction)))
        rfl).expression
  | and =>
      exact (Reads.node 26 rfl (by decide)
        (.cons hcomparison.conjunction (.token (.last hterm.comparison))) rfl).disjunction.expression
  | equal =>
      exact comparing (.node 28 rfl (by decide) (.cons hcomparison (.token (.last hterm))) rfl)
  | notEqual =>
      exact comparing (.node 29 rfl (by decide) (.cons hcomparison (.token (.last hterm))) rfl)
  | approx =>
      exact comparing (.node 30 rfl (by decide) (.cons hcomparison (.token (.last hterm))) rfl)
  | less =>
      exact comparing (.node 31 rfl (by decide) (.cons hcomparison (.token (.last hterm))) rfl)
  | greater =>
      exact comparing (.node 32 rfl (by decide) (.cons hcomparison (.token (.last hterm))) rfl)
  | lessEqual =>
      exact comparing (.node 33 rfl (by decide) (.cons hcomparison (.token (.last hterm))) rfl)
  | greaterEqual =>
      exact comparing (.node 34 rfl (by decide) (.cons hcomparison (.token (.last hterm))) rfl)
  | add =>
      exact comparing (Reads.comparison
        (.node 36 rfl (by decide) (.cons hsum (.token (.last hfactor))) rfl))
  | subtract =>
      exact comparing (Reads.comparison
        (.node 37 rfl (by decide) (.cons hsum (.token (.last hfactor))) rfl))
  | multiply =>
      exact comparing (Reads.comparison (Reads.sum
        (.node 39 rfl (by decide) (.cons hproduct (.token (.last hunary))) rfl)))
  | divide =>
      exact comparing (Reads.comparison (Reads.sum
        (.node 40 rfl (by decide) (.cons hproduct (.token (.last hunary))) rfl)))
  | modulo =>
      exact comparing (Reads.comparison (Reads.sum
        (.node 41 rfl (by decide) (.cons hproduct (.token (.last hunary))) rfl)))
  | power =>
      exact comparing (Reads.comparison (Reads.sum (Reads.product (Reads.unary
        (.node 47 rfl (by decide) (.cons hleft (.token (.last hunary))) rfl)))))

theorem reads_unary (operator : UnaryOperator) {operand : Node} (span : Span)
    (hoperand : Reads (.nonTerminal .access) operand.words (.node operand.braced)) :
    Reads (.nonTerminal .expression) ((operator.token, operator.text) :: operand.words)
      (.node (Node.unary operator operand span).braced) := by
  have hunary : Reads (.nonTerminal .unary) ((operator.token, operator.text) :: operand.words)
      (.node (Node.unary operator operand span).braced) := by
    cases operator with
    | negate => exact .node 43 rfl (by decide) (.token (.last hoperand.power.unary)) rfl
    | not => exact .node 45 rfl (by decide) (.token (.last hoperand.power.unary)) rfl
  exact hunary.product.sum.comparison.conjunction.disjunction.expression

/-- A function literal. -/
theorem reads_function {params : List Name} {body : Node} (literal span : Span)
    (hparams : ∀ n ∈ params, Lexical .identifier n.text) (hblock : body.isBlock = true)
    (hbody : body.Rereads) :
    Reads (.nonTerminal .access) (Node.function params body literal span).words
      (.node (Node.function params body literal span).braced) := by
  cases body with
  | block statements s =>
      simp only [Node.words, Node.isBlock, if_true, Word.parens, Word.braces, List.cons_append,
        List.append_assoc, List.nil_append]
      refine reads_value (.node 61 rfl (by decide) (.token (.token (.cons (reads_parameters hparams)
        (.token (.token (.cons (hbody.lines rfl) (.token .nil))))))) ?_)
      simp [Node.braced, Node.recast, recastAll_eq_map]
      rfl
  | _ => cases hblock

theorem reads_map {params : List Name} {body : Node} (literal span : Span)
    (hparams : ∀ n ∈ params, Lexical .identifier n.text)
    (hbody : Reads (.nonTerminal .expression) body.words (.node body.braced)) :
    Reads (.nonTerminal .expression)
      ((.mapWord, "map") :: Word.parens (Word.names params) ++ (.arrow, "->") :: body.words)
      (.node (Node.map params body literal span).braced) := by
  simp only [Word.parens, List.cons_append, List.append_assoc, List.nil_append]
  exact .node 23 rfl (by decide)
    (.token (.token (.cons (reads_parameters hparams) (.token (.token (.last hbody)))))) rfl

/-- Expressions are read as such. -/
theorem Node.reads_expression {node : Node} (here : node.Shaped Lexical)
    (ih : ∀ child ∈ node.children, child.Rereads) (hexpr : node.isExpression = true) :
    Reads (.nonTerminal .access) node.words (.node node.braced) := by
  cases node with
  | conditional condition yes no span =>
      have hcondition := (ih condition (by simp [Node.children])).expression here.1
      have hyes := (ih yes (by simp [Node.children])).loose here.2.1
      have hno := (ih no (by simp [Node.children])).loose here.2.2
      refine .parens ?_
      simp only [List.append_assoc, List.cons_append]
      exact .node 22 rfl (by decide)
        (.cons hcondition.power.unary.product.sum.comparison.conjunction.disjunction
          (.token (.cons hyes (.token (.last hno))))) rfl
  | function params body literal span =>
      exact reads_function literal span here.1 here.2 (ih body (by simp [Node.children]))
  | map params body literal span =>
      exact .parens (reads_map literal span here.1 ((ih body (by simp [Node.children])).loose here.2))
  | call callee args span =>
      have hcallee := (ih callee (by simp [Node.children])).expression here.1
      have hargs := reads_arguments fun arg harg =>
        (ih arg (by simp [Node.children, harg])).loose (here.2 arg harg)
      refine .node 51 rfl (by decide) (.cons hcallee (.token (.cons hargs (.token .nil)))) ?_
      simp [Node.braced, Node.recast, recastAll_eq_map]
      rfl
  | callWith callee args attributes span =>
      have hcallee := (ih callee (by simp [Node.children])).expression here.1
      have hargs := reads_arguments fun arg harg =>
        (ih arg (by simp [Node.children, harg])).loose (here.2.1 arg harg)
      have hattributes := reads_object fun p hp => by
        have hmem : p.value ∈ (Node.callWith callee args attributes span).children :=
          List.mem_append_right _ (List.mem_map_of_mem hp)
        exact ⟨(here.2.2 p hp).1, (ih p.value hmem).loose (here.2.2 p hp).2⟩
      simp only [Node.words, Word.parens, List.cons_append, List.append_assoc, List.nil_append]
      refine .node 52 rfl (by decide)
        (.cons hcallee (.token (.cons hargs (.token (.last hattributes))))) ?_
      simp [Node.braced, Node.recast, recastAll_eq_map, recastProperties_eq_map]
      rfl
  | array items span =>
      have hitems : Reads (.nonTerminal .arguments) (wordsList items) _ :=
        reads_arguments fun item hitem => (ih item hitem).loose (here item hitem)
      refine reads_value (.node 63 rfl (by decide) (.token (.cons hitems (.token .nil))) ?_)
      simp [Node.braced, Node.recast, recastAll_eq_map]
      rfl
  | object properties span =>
      have hobject := reads_object fun p hp =>
        ⟨(here p hp).1, (ih p.value (List.mem_map_of_mem hp)).loose (here p hp).2⟩
      rw [Node.braced, Node.recast, recastProperties_eq_map]
      exact reads_value (.pass 62 rfl (by decide) hobject)
  | index base place span =>
      have hbase := (ih base (by simp [Node.children])).expression here.1
      have hplace := (ih place (by simp [Node.children])).loose here.2
      exact .node 49 rfl (by decide) (.cons hbase (.token (.cons hplace (.token .nil)))) rfl
  | binary operator left right span =>
      have hleft := (ih left (by simp [Node.children])).expression here.1
      have hright := (ih right (by simp [Node.children])).expression here.2
      exact .parens (reads_binary operator span hleft hright)
  | unary operator operand span =>
      have hoperand := (ih operand (by simp [Node.children])).expression here
      exact .parens (reads_unary operator span hoperand)
  | identifier text span =>
      rw [Node.words, ofWord_of_lexical here]
      exact reads_value (.node 59 rfl (by decide) (.token .nil) rfl)
  | numeral text kind span =>
      cases kind with
      | integer => exact reads_value (.node 54 rfl (by decide) (.token .nil) rfl)
      | float => exact reads_value (.node 55 rfl (by decide) (.token .nil) rfl)
  | string value span =>
      refine reads_value (.node 56 rfl (by decide) (.token .nil) ?_)
      exact congrArg (fun text => some (Meaning.node (.string text default))) (value_quote value)
  | boolean value span =>
      cases value with
      | false => exact reads_value (.node 58 rfl (by decide) (.token .nil) rfl)
      | true => exact reads_value (.node 57 rfl (by decide) (.token .nil) rfl)
  | coordinate axis operand span =>
      have hoperand := (ih operand (by simp [Node.children])).loose here
      cases axis with
      | x =>
          exact reads_value
            (.node 64 rfl (by decide) (.token (.token (.cons hoperand (.token .nil)))) rfl)
      | y =>
          exact reads_value
            (.node 65 rfl (by decide) (.token (.token (.cons hoperand (.token .nil)))) rfl)
  | property owner n span =>
      have howner := (ih owner (by simp [Node.children])).expression here.1
      exact .node 50 rfl (by decide)
        (.cons howner (.token (.last (reads_propertyName here.2)))) rfl
  | _ => cases hexpr

/-- Assignments are read as such. -/
theorem Node.reads_assignment {node : Node} (here : node.Shaped Lexical)
    (ih : ∀ child ∈ node.children, child.Rereads) (hassign : node.isAssignment = true) :
    Reads (.nonTerminal .assignment) node.words (.node node.braced) := by
  cases node with
  | assign n value span =>
      have hvalue := (ih value (by simp [Node.children])).loose here.2
      have htarget : Reads (.nonTerminal .target) [Word.name n.text]
          (.target (.variable (n.recast nowhere))) := by
        rw [ofWord_of_lexical here.1]
        exact .node 18 rfl (by decide) (.token .nil) rfl
      exact .node 17 rfl (by decide) (.cons htarget (.token (.last hvalue))) rfl
  | assignProperty owner n value span =>
      have howner := (ih owner (by simp [Node.children])).expression here.1
      have hvalue := (ih value (by simp [Node.children])).loose here.2.2
      have htarget : Reads (.nonTerminal .target) (owner.words ++ [(.dot, "."), Word.name n.text])
          (.target (.property owner.braced (n.recast nowhere))) :=
        .node 19 rfl (by decide) (.cons howner (.token (.last (reads_propertyName here.2.1)))) rfl
      have hwords : (Node.assignProperty owner n value span).words
          = (owner.words ++ [(.dot, "."), Word.name n.text]) ++ (.assign, "=") :: value.words := by
        simp [Node.words]
      rw [hwords]
      exact .node 17 rfl (by decide) (.cons htarget (.token (.last hvalue))) rfl
  | assignIndex base place value span =>
      have hbase := (ih base (by simp [Node.children])).expression here.1
      have hplace := (ih place (by simp [Node.children])).loose here.2.1
      have hvalue := (ih value (by simp [Node.children])).loose here.2.2
      have htarget : Reads (.nonTerminal .target) (base.words ++ Word.brackets place.words)
          (.target (.index base.braced place.braced)) :=
        .node 20 rfl (by decide) (.cons hbase (.token (.cons hplace (.token .nil)))) rfl
      exact .node 17 rfl (by decide) (.cons htarget (.token (.last hvalue))) rfl
  | _ => cases hassign

-- =================================================================== bodies

/-- A body is written as a block. -/
theorem words_body (body : Node) :
    (if body.isBlock then body.words else Word.braces (body.words ++ Word.mark body))
      = Word.braces (wordsLines body.statements) := by
  cases body with
  | block statements span => simp [Node.isBlock, Node.words, Node.statements]
  | _ => simp [Node.isBlock, Node.statements, wordsLines]

/-- A body in braces is a block. -/
theorem braced_body (body : Node) :
    (if true && !body.isBlock then .block [body.braced] (nowhere body.span) else body.braced)
      = Node.block (body.statements.map Node.braced) default := by
  cases body with
  | block statements span =>
      simp [Node.isBlock, Node.statements, Node.braced, Node.recast, recastAll_eq_map]
  | _ => rfl

/-- The same, and no `else` behind the phrase belongs to an `if` inside. -/
def ReadsClosed (symbol : Symbol) (words : List Word) (want : Meaning) : Prop :=
  ∀ tokens : List Token, tokens.map Token.word = words →
    ∃ d : Phrase symbol, d.tokens = tokens ∧ d.Nearest ∧ d.gist = some want ∧ d.endsOpen = false

theorem ReadsClosed.reads {symbol : Symbol} {words : List Word} {want : Meaning}
    (h : ReadsClosed symbol words want) : Reads symbol words want := by
  intro tokens htokens
  obtain ⟨d, hd, hnear, hgist, -⟩ := h tokens htokens
  exact ⟨d, hd, hnear, hgist⟩

/-- Reading by a rule that ends with a token. -/
theorem ReadsClosed.node (index : Nat) {rule : Rule} (hrule : rules[index]? = some rule)
    (hne : index ≠ ifElseRule) (hif : index ≠ ifRule)
    (hlast : ∀ n, rule.production.body.getLast? ≠ some (.nonTerminal n)) {words : List Word}
    {wants : List Meaning} {want : Meaning} (hparts : ReadsAll rule.production.body words wants)
    (hbuild : rule.build default wants = some want) :
    ReadsClosed (.nonTerminal rule.production.head) words want := by
  intro tokens h
  obtain ⟨ds, htokens, hnear, hgists⟩ := hparts tokens h
  have hopen : ds.endsOpen = false := by
    by_contra hopen
    obtain ⟨n, hn⟩ := ds.getLast?_of_endsOpen (by simpa using hopen)
    exact hlast n hn
  refine ⟨.node index hrule ds, htokens, ⟨fun h => absurd h hne, hnear⟩, ?_, ?_⟩
  · rw [Phrase.gist, hgists]
    exact hbuild
  · simp [Phrase.endsOpen, hopen, hif]

/-- A body is read as a block. -/
theorem Node.Rereads.body {node : Node} (h : node.Rereads) (hs : node.isStatement = true) :
    ReadsClosed (.nonTerminal .statement) (Word.braces (wordsLines node.statements))
      (.node (.block (node.statements.map Node.braced) default)) :=
  .node 15 rfl (by decide) (by decide) (fun _ h => by cases h)
    (.token (.cons (h.lines hs) (.token .nil))) rfl

/-- The same for phrases, of which the one at a place is closed. -/
def ReadsClosedAt (place : Nat) (symbols : List Symbol) (words : List Word)
    (wants : List Meaning) : Prop :=
  ∀ tokens : List Token, tokens.map Token.word = words →
    ∃ ds : Phrases symbols, ds.tokens = tokens ∧ ds.Nearest ∧ ds.gists = some wants ∧
      ds.openAt place = false

theorem ReadsClosedAt.here {symbol : Symbol} {symbols : List Symbol} {words others : List Word}
    {want : Meaning} {wants : List Meaning} (hfirst : ReadsClosed symbol words want)
    (hothers : ReadsAll symbols others wants) :
    ReadsClosedAt 0 (symbol :: symbols) (words ++ others) (want :: wants) := by
  intro tokens h
  obtain ⟨front, back, rfl, hfront, hback⟩ := List.map_eq_append_iff.1 h
  obtain ⟨d, rfl, hnear, hgist, hopen⟩ := hfirst front hfront
  obtain ⟨ds, rfl, hnears, hgists⟩ := hothers back hback
  exact ⟨.cons d ds, rfl, ⟨hnear, hnears⟩, by rw [Phrases.gists, hgist, hgists]; rfl, hopen⟩

theorem ReadsClosedAt.later {place : Nat} {symbol : Symbol} {symbols : List Symbol}
    {words others : List Word} {want : Meaning} {wants : List Meaning}
    (hfirst : Reads symbol words want) (hothers : ReadsClosedAt place symbols others wants) :
    ReadsClosedAt (place + 1) (symbol :: symbols) (words ++ others) (want :: wants) := by
  intro tokens h
  obtain ⟨front, back, rfl, hfront, hback⟩ := List.map_eq_append_iff.1 h
  obtain ⟨d, rfl, hnear, hgist⟩ := hfirst front hfront
  obtain ⟨ds, rfl, hnears, hgists, hopen⟩ := hothers back hback
  exact ⟨.cons d ds, rfl, ⟨hnear, hnears⟩, by rw [Phrases.gists, hgist, hgists]; rfl, hopen⟩

/-- An `else` behind a closed branch belongs to the `if` of that branch. -/
theorem Reads.nodeClosed (index : Nat) {rule : Rule} (hrule : rules[index]? = some rule)
    {words : List Word} {wants : List Meaning} {want : Meaning}
    (hparts : ReadsClosedAt 4 rule.production.body words wants)
    (hbuild : rule.build default wants = some want) :
    Reads (.nonTerminal rule.production.head) words want := by
  intro tokens h
  obtain ⟨ds, htokens, hnear, hgists, hopen⟩ := hparts tokens h
  refine ⟨.node index hrule ds, htokens, ⟨fun _ => hopen, hnear⟩, ?_⟩
  rw [Phrase.gist, hgists]
  exact hbuild

/-- Statements are read as such. -/
theorem Node.reads_statement {node : Node} (here : node.Shaped Lexical)
    (ih : ∀ child ∈ node.children, child.Rereads) (hstatement : node.isStatement = true) :
    Reads (.nonTerminal .statement) (node.words ++ Word.mark node) (.node node.braced) := by
  have assignment (h : node.isAssignment = true) (hmark : Word.mark node = [(.semicolon, ";")]) :
      Reads (.nonTerminal .statement) (node.words ++ Word.mark node) (.node node.braced) := by
    rw [hmark]
    exact .node 13 rfl (by decide) (.cons (node.reads_assignment here ih h) (.token .nil)) rfl
  cases node with
  | block statements span =>
      have hlines := reads_statements fun node hnode => (ih node hnode).statement (here node hnode)
      simp only [Node.words, Word.mark, Word.braces, List.append_nil]
      refine .node 15 rfl (by decide) (.token (.cons hlines (.token .nil))) ?_
      simp [Node.braced, Node.recast, recastAll_eq_map]
      rfl
  | assign | assignProperty | assignIndex => exact assignment rfl rfl
  | ifThen condition yes span =>
      have hcondition := (ih condition (by simp [Node.children])).loose here.1
      have hyes := ((ih yes (by simp [Node.children])).body here.2).reads
      simp only [Node.words, words_body]
      simp only [Word.mark, Word.parens, List.cons_append, List.append_assoc, List.nil_append,
        List.append_nil]
      rw [← braced_body] at hyes
      exact .node 4 rfl (by decide) (.token (.token (.cons hcondition (.token (.last hyes))))) rfl
  | ifElse condition yes no span =>
      have hcondition := (ih condition (by simp [Node.children])).loose here.1
      have hyes := (ih yes (by simp [Node.children])).body here.2.1
      have hno := ((ih no (by simp [Node.children])).body here.2.2).reads
      simp only [Node.words, words_body]
      simp only [Word.mark, Word.parens, List.cons_append, List.append_assoc, List.nil_append,
        List.append_nil]
      rw [← braced_body] at hyes hno
      exact .nodeClosed 5 rfl (.later (.token .ifWord "if") (.later (.token .leftParen "(")
        (.later hcondition (.later (.token .rightParen ")") (.here hyes (.token (.last hno))))))) rfl
  | whileLoop condition body span =>
      have hcondition := (ih condition (by simp [Node.children])).loose here.1
      have hbody := ((ih body (by simp [Node.children])).body here.2).reads
      simp only [Node.words, words_body]
      simp only [Word.mark, Word.parens, List.cons_append, List.append_assoc, List.nil_append,
        List.append_nil]
      rw [← braced_body] at hbody
      exact .node 6 rfl (by decide) (.token (.token (.cons hcondition (.token (.last hbody))))) rfl
  | doLoop body condition span =>
      have hbody := ((ih body (by simp [Node.children])).body here.1).reads
      have hcondition := (ih condition (by simp [Node.children])).loose here.2
      simp only [Node.words, words_body]
      simp only [Word.mark, Word.parens, List.cons_append, List.append_assoc, List.nil_append]
      rw [← braced_body] at hbody
      exact .node 7 rfl (by decide) (.token (.cons hbody (.token (.token (.cons hcondition
        (.token (.token .nil))))))) rfl
  | forLoop init condition step body span =>
      obtain ⟨hi, hc, hs, hb⟩ := here
      have hinit := (ih init (by simp [Node.children])).assignment hi
      have hcondition := (ih condition (by simp [Node.children])).loose hc
      have hstep := (ih step (by simp [Node.children])).assignment hs
      have hbody := ((ih body (by simp [Node.children])).body hb).reads
      simp only [Node.words, words_body]
      simp only [Word.mark, Word.parens, List.cons_append, List.append_assoc, List.nil_append,
        List.append_nil]
      rw [← braced_body] at hbody
      exact .node 8 rfl (by decide) (.token (.token (.cons hinit (.token (.cons hcondition
        (.token (.cons hstep (.token (.last hbody))))))))) rfl
  | useBoard n span =>
      simp only [Node.words, Word.mark, ofWord_of_lexical here, List.cons_append, List.nil_append]
      exact .node 9 rfl (by decide) (.token (.token (.token .nil))) rfl
  | delete operand span =>
      have hoperand := (ih operand (by simp [Node.children])).loose here
      exact .node 10 rfl (by decide) (.token (.cons hoperand (.token .nil))) rfl
  | returnNothing span => exact .node 11 rfl (by decide) (.token (.token .nil)) rfl
  | returnValue value span =>
      have hvalue := (ih value (by simp [Node.children])).loose here
      exact .node 12 rfl (by decide) (.token (.cons hvalue (.token .nil))) rfl
  | expression value span =>
      have hvalue := (ih value (by simp [Node.children])).loose here
      exact .node 14 rfl (by decide) (.cons hvalue (.token .nil)) rfl
  | _ => cases hstatement

/-- A proper node is read again from its words. -/
theorem Node.Proper.rereads {node : Node} (h : node.Proper Lexical) : node.Rereads := by
  induction h with
  | @intro node here parts ih =>
  have hstatement := node.reads_statement here ih
  refine ⟨node.reads_expression here ih, node.reads_assignment here ih, hstatement, fun h => ?_⟩
  cases node with
  | block statements span => exact reads_statements fun node hnode => (ih node hnode).statement (here node hnode)
  | _ => exact reads_statements (List.forall_mem_singleton.2 (hstatement h))

end BoardScript
