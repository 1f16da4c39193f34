/-
Programs that are a function around something. The tokens of a function
literal, written around a `return` of an expression, are parsed to a program
of one statement: the literal, without parameters, whose body gives the
expression back (`parse_wrapped`). Between the same tokens there may
stand others that are no expression, and then the program is another one.
-/
import BoardScript.Proofs.Program.Grammatical
import BoardScript.Proofs.Program.Phrasing

namespace BoardScript

open Grammar

/-- The tokens of statements are parsed to the program of what they mean. -/
theorem parseTokens_statements (options : ParseOptions) (source : Source)
    {d : Phrase (.nonTerminal .statements)} (hnear : d.Nearest) {after : Token}
    (hend : after.kind = .endOfInput) {nodes : List Node}
    (hmeaning : d.meaning after.span.start = some (.nodes nodes)) :
    ∃ whole, parseTokens options source (d.tokens ++ [after]) = ⟨some (.block nodes whole), []⟩ := by
  obtain ⟨root, hroot, hparse⟩ := parseTokens_phrase options source (.program d)
    (Phrase.nearest_program hnear) [] hend
  obtain ⟨whole, hwhole⟩ := Phrase.exists_meaning_program hmeaning
  obtain rfl := Meaning.node.inj (Option.some.inj (hroot.symm.trans hwhole))
  rw [Phrase.tokens_program] at hparse
  exact ⟨whole, hparse⟩

/-- The same of a single statement. -/
theorem parseTokens_statement (options : ParseOptions) (source : Source)
    {d : Phrase (.nonTerminal .statement)} (hnear : d.Nearest) {after : Token}
    (hend : after.kind = .endOfInput) {node : Node}
    (hmeaning : d.meaning after.span.start = some (.node node)) :
    ∃ whole, parseTokens options source (d.tokens ++ [after]) = ⟨some (.block [node] whole), []⟩ := by
  obtain ⟨whole, hparse⟩ := parseTokens_statements options source
    (Phrase.nearest_behind Phrase.nearest_noStatements hnear) hend
    (Phrase.meaning_behind (Phrase.meaning_noStatements _) hmeaning)
  rw [Phrase.tokens_behind, Phrase.tokens_noStatements, List.nil_append] at hparse
  exact ⟨whole, hparse⟩

/-- The tokens that make a function literal of a statement, and a statement
of the literal. -/
structure Wrapping where
  word : Token
  opening : Token
  closing : Token
  left : Token
  right : Token
  last : Token
  word_kind : word.kind = .functionWord
  opening_kind : opening.kind = .leftParen
  closing_kind : closing.kind = .rightParen
  left_kind : left.kind = .leftBrace
  right_kind : right.kind = .rightBrace
  last_kind : last.kind = .semicolon

namespace Wrapping

variable (w : Wrapping)

/-- The tokens around those of the body. -/
def around (body : List Token) : List Token :=
  [w.word, w.opening, w.closing, w.left] ++ body ++ [w.right, w.last]

/-- The function literal around a statement. -/
def literal (body : Phrase (.nonTerminal .statement)) : Phrase (.nonTerminal .value) :=
  .functionAround w.word w.opening w.closing w.left w.right w.word_kind w.opening_kind
    w.closing_kind w.left_kind w.right_kind body

/-- The literal as a statement. -/
def statement (body : Phrase (.nonTerminal .statement)) : Phrase (.nonTerminal .statement) :=
  (w.literal body).ofValue.asStatement w.last w.last_kind

theorem tokens_statement (body : Phrase (.nonTerminal .statement)) :
    (w.statement body).tokens = w.around body.tokens := by
  simp [statement, literal, around]

theorem nearest_statement {body : Phrase (.nonTerminal .statement)} (h : body.Nearest) :
    (w.statement body).Nearest :=
  Phrase.nearest_asStatement _ _ _ (Phrase.nearest_ofValue (Phrase.nearest_functionAround (h := h) ..))

theorem exists_meaning_statement (body : Phrase (.nonTerminal .statement)) {node : Node}
    (hbody : body.meaning w.right.span.start = some (.node node)) (next : Nat) :
    ∃ span whole, (w.statement body).meaning next
      = some (.node (.expression (.function [] (.block [node] span) span span) whole)) := by
  obtain ⟨span, hliteral⟩ := Phrase.exists_meaning_functionAround w.word w.opening w.closing w.left
    w.right w.word_kind w.opening_kind w.closing_kind w.left_kind w.right_kind hbody
    w.last.span.start
  exact ⟨span, Phrase.exists_meaning_asStatement (w.literal body).ofValue w.last w.last_kind
    (by rw [Phrase.meaning_ofValue, literal, hliteral]) next⟩

end Wrapping

/-- A program that is a function without parameters around one statement. -/
def Node.wrapped (body : Node) (literal statement whole : Span) : Node :=
  .block [.expression (.function [] (.block [body] literal) literal literal) statement] whole

/-- The tokens of a function literal around those of a statement are parsed
to the program that is such a function. -/
theorem Wrapping.parseTokens_around (w : Wrapping) (options : ParseOptions) (source : Source)
    {body : Phrase (.nonTerminal .statement)} {node : Node} (hnear : body.Nearest)
    (hbody : body.meaning w.right.span.start = some (.node node)) {after : Token}
    (hend : after.kind = .endOfInput) :
    ∃ literal statement whole, parseTokens options source (w.around body.tokens ++ [after])
      = ⟨some (node.wrapped literal statement whole), []⟩ := by
  obtain ⟨literal, statement, hstatement⟩ :=
    w.exists_meaning_statement body hbody after.span.start
  obtain ⟨whole, hparse⟩ :=
    parseTokens_statement options source (w.nearest_statement hnear) hend hstatement
  rw [w.tokens_statement] at hparse
  exact ⟨literal, statement, whole, hparse⟩

-- =================================================================== texts

/-- The kinds of the tokens in front of the expression that a function gives
back. -/
def openingKinds : List TokenKind :=
  [.functionWord, .leftParen, .rightParen, .leftBrace, .returnWord]

/-- The kinds of the tokens behind it. -/
def closingKinds : List TokenKind := [.semicolon, .rightBrace, .semicolon, .endOfInput]

/-- Tokens of derived kinds are those of a phrase, with every `else` at the
nearest `if`. -/
theorem exists_nearest_of_derives {n : NonTerminal} {tokens : List Token}
    (h : grammar.Derives [.nonterminal n] ((tokens.map (·.kind)).map .terminal)) :
    ∃ d : Phrase (.nonTerminal n), d.tokens = tokens ∧ d.Nearest := by
  have hderives : Derivable [.nonTerminal n] tokens :=
    Derivable.ofDerives (u := [.nonterminal n]) (by rwa [List.map_map] at h)
  obtain ⟨d, rfl⟩ := hderives.exists_phrase
  exact d.exists_nearest

/-- A text with tokens around those of an expression. -/
theorem parse_wrapped (options : ParseOptions) (source : Source) {inner : List TokenKind}
    (hkinds : (Token.scan source.text).map (·.kind) = openingKinds ++ inner ++ closingKinds)
    (hinner : grammar.Derives [.nonterminal .expression] (inner.map .terminal)) :
    ∃ value given literal statement whole, parse options source
      = ⟨some ((Node.returnValue value given).wrapped literal statement whole), []⟩ := by
  obtain ⟨front, back, hscan, hfront, hback⟩ := List.map_eq_append_iff.1 hkinds
  obtain ⟨before, tokens, rfl, hbefore, rfl⟩ := List.map_eq_append_iff.1 hfront
  simp only [openingKinds, closingKinds, List.map_eq_cons_iff, List.map_eq_nil_iff] at hbefore hback
  obtain ⟨word, _, rfl, hword, opening, _, rfl, hopening, closing, _, rfl, hclosing, left, _, rfl,
    hleft, giving, _, rfl, hgiving, rfl⟩ := hbefore
  obtain ⟨semicolon, _, rfl, hsemicolon, right, _, rfl, hright, last, _, rfl, hlast, after, _, rfl,
    hafter, rfl⟩ := hback
  let w : Wrapping := ⟨word, opening, closing, left, right, last, hword, hopening, hclosing, hleft,
    hright, hlast⟩
  -- a derivation of the tokens inside, and what it means
  obtain ⟨d, hd, hnear⟩ := exists_nearest_of_derives hinner
  obtain ⟨m, hm, hsorted⟩ := @Phrase.sorted .anything _ semicolon.span.start d fun _ _ => trivial
  obtain ⟨value, rfl⟩ : ∃ value, m = .node value := by
    cases hsorted
    exact ⟨_, rfl⟩
  let body : Phrase (.nonTerminal .statement) :=
    .node 12 rfl (.cons (.ofToken giving hgiving) (.cons d (.cons (.ofToken semicolon hsemicolon) .nil)))
  have hbody : ∃ given, body.meaning right.span.start
      = some (.node (.returnValue value given)) := by
    simp only [body, Phrase.meaning, Phrases.meanings, Phrase.tokens_ofToken,
      Phrase.meaning_ofToken, Phrases.tokens, List.append_nil, startOf, Option.bind_some,
      Option.map_some]
    rw [hm]
    exact ⟨_, rfl⟩
  obtain ⟨given, hbody⟩ := hbody
  have hnearest : body.Nearest :=
    ⟨fun e => absurd e (by decide), Phrase.nearest_ofToken _ _, hnear, Phrase.nearest_ofToken _ _,
      trivial⟩
  obtain ⟨literal, statement, whole, hparse⟩ :=
    w.parseTokens_around options source hnearest hbody hafter
  refine ⟨value, given, literal, statement, whole, ?_⟩
  have hbodyTokens : body.tokens = giving :: tokens ++ [semicolon] := by
    show (Phrase.ofToken giving hgiving).tokens ++ (d.tokens ++
      ((Phrase.ofToken semicolon hsemicolon).tokens ++ [])) = _
    simp [hd]
  rw [parse, hscan, ← hparse, hbodyTokens]
  simp [Wrapping.around, w]

end BoardScript
