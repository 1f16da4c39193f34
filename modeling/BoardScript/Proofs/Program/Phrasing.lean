/-
Phrases put together: tokens as phrases, values and calls as expressions,
statements one behind the other and the program of some statements, each with
its tokens and its meaning. A program with a loop, a branch and calls is put
together of these (`Phrase.logOnce`).
-/
import BoardScript.Proofs.Program.Else
import BoardScript.Proofs.Token.Bytes

namespace BoardScript

open Grammar

namespace Phrase

@[simp] theorem span_ofToken {kind : TokenKind} (token : Token) (h : token.kind = kind) :
    (ofToken token h).span = some token.span := by
  subst h
  rfl

@[simp] theorem meaning_ofToken {kind : TokenKind} (next : Nat) (token : Token)
    (h : token.kind = kind) : (ofToken token h).meaning next = some (.token token) := by
  subst h
  rfl

/-- What can be called and looked into, as an expression, by the rules that
lead from each kind of expression to the next. -/
def ofAccess (a : Phrase (.nonTerminal .access)) : Phrase (.nonTerminal .expression) :=
  let power : Phrase (.nonTerminal .power) := .node 48 rfl (.cons a .nil)
  let unary : Phrase (.nonTerminal .unary) := .node 46 rfl (.cons power .nil)
  let product : Phrase (.nonTerminal .product) := .node 42 rfl (.cons unary .nil)
  let sum : Phrase (.nonTerminal .sum) := .node 38 rfl (.cons product .nil)
  let comparison : Phrase (.nonTerminal .comparison) := .node 35 rfl (.cons sum .nil)
  let conjunction : Phrase (.nonTerminal .conjunction) := .node 27 rfl (.cons comparison .nil)
  let disjunction : Phrase (.nonTerminal .disjunction) := .node 25 rfl (.cons conjunction .nil)
  .node 21 rfl (.cons disjunction .nil)

/-- A value as an expression. -/
def ofValue (v : Phrase (.nonTerminal .value)) : Phrase (.nonTerminal .expression) :=
  ofAccess (.node 53 rfl (.cons v .nil))

/-- A value that is called. -/
def callOf (v : Phrase (.nonTerminal .value)) (opening : Token)
    (args : Phrase (.nonTerminal .arguments)) (closing : Token)
    (hopening : opening.kind = .leftParen) (hclosing : closing.kind = .rightParen) :
    Phrase (.nonTerminal .expression) :=
  ofAccess (.node 51 rfl (.cons (.node 53 rfl (.cons v .nil)) (.cons (.ofToken opening hopening)
    (.cons args (.cons (.ofToken closing hclosing) .nil)))))

theorem nearest_ofAccess {a : Phrase (.nonTerminal .access)} (h : a.Nearest) : a.ofAccess.Nearest := by
  simp [ofAccess, Nearest, Phrases.Nearest, ifElseRule, h]

@[simp] theorem tokens_ofAccess (a : Phrase (.nonTerminal .access)) : a.ofAccess.tokens = a.tokens := by
  simp [ofAccess, tokens, Phrases.tokens]

@[simp] theorem meaning_ofAccess (a : Phrase (.nonTerminal .access)) (next : Nat) :
    a.ofAccess.meaning next = a.meaning next := by
  cases ha : a.meaning next <;>
    simp only [ofAccess, meaning, Phrases.meanings, Phrases.tokens, startOf, ha] <;> rfl

theorem nearest_ofValue {v : Phrase (.nonTerminal .value)} (h : v.Nearest) : v.ofValue.Nearest := by
  refine nearest_ofAccess ?_
  simp [Nearest, Phrases.Nearest, ifElseRule, h]

@[simp] theorem tokens_ofValue (v : Phrase (.nonTerminal .value)) : v.ofValue.tokens = v.tokens := by
  refine (tokens_ofAccess _).trans ?_
  simp [tokens, Phrases.tokens]

@[simp] theorem meaning_ofValue (v : Phrase (.nonTerminal .value)) (next : Nat) :
    v.ofValue.meaning next = v.meaning next := by
  refine (meaning_ofAccess _ next).trans ?_
  cases hv : v.meaning next <;>
    simp only [meaning, Phrases.meanings, Phrases.tokens, startOf, hv] <;> rfl

/-- No statements. -/
def noStatements : Phrase (.nonTerminal .statements) := .node 3 rfl .nil

/-- Statements with one more behind them. -/
def behind (others : Phrase (.nonTerminal .statements)) (last : Phrase (.nonTerminal .statement)) :
    Phrase (.nonTerminal .statements) :=
  .node 2 rfl (.cons others (.cons last .nil))

/-- The program of some statements. -/
def program (statements : Phrase (.nonTerminal .statements)) : Phrase (.nonTerminal .program) :=
  .node 1 rfl (.cons statements .nil)

@[simp] theorem meaning_noStatements (next : Nat) : noStatements.meaning next = some (.nodes []) := rfl

theorem meaning_behind {others : Phrase (.nonTerminal .statements)}
    {last : Phrase (.nonTerminal .statement)} {next : Nat} {statements : List Node} {node : Node}
    (hothers : others.meaning (startOf next last.tokens) = some (.nodes statements))
    (hlast : last.meaning next = some (.node node)) :
    (others.behind last).meaning next = some (.nodes (statements ++ [node])) := by
  have hnil : startOf next [] = next := rfl
  simp only [behind, meaning, Phrases.meanings, Phrases.tokens, List.append_nil, hnil, hothers,
    hlast, Option.bind_some, Option.map_some]
  rfl

theorem exists_meaning_program {statements : Phrase (.nonTerminal .statements)} {next : Nat}
    {nodes : List Node} (h : statements.meaning next = some (.nodes nodes)) :
    ∃ whole, (program statements).meaning next = some (.node (.block nodes whole)) := by
  simp only [program, meaning, Phrases.meanings, Phrases.tokens, startOf, h, Option.bind_some,
    Option.map_some]
  exact ⟨_, rfl⟩

@[simp] theorem tokens_noStatements : noStatements.tokens = [] := rfl

@[simp] theorem tokens_behind (others : Phrase (.nonTerminal .statements))
    (last : Phrase (.nonTerminal .statement)) :
    (others.behind last).tokens = others.tokens ++ last.tokens := by
  simp [behind, tokens, Phrases.tokens]

@[simp] theorem tokens_program (statements : Phrase (.nonTerminal .statements)) :
    (program statements).tokens = statements.tokens := by
  simp [program, tokens, Phrases.tokens]

theorem nearest_noStatements : noStatements.Nearest :=
  ⟨fun e => absurd e (by decide), trivial⟩

theorem nearest_behind {others : Phrase (.nonTerminal .statements)}
    {last : Phrase (.nonTerminal .statement)} (hothers : others.Nearest) (hlast : last.Nearest) :
    (others.behind last).Nearest :=
  ⟨fun e => absurd e (by decide), hothers, hlast, trivial⟩

theorem nearest_program {statements : Phrase (.nonTerminal .statements)} (h : statements.Nearest) :
    (program statements).Nearest :=
  ⟨fun e => absurd e (by decide), h, trivial⟩

section

variable (word opening closing left right : Token) (hword : word.kind = .functionWord)
  (hopening : opening.kind = .leftParen) (hclosing : closing.kind = .rightParen)
  (hleft : left.kind = .leftBrace) (hright : right.kind = .rightBrace)
  {body : Phrase (.nonTerminal .statement)}

/-- A function literal without parameters around a statement. -/
def functionAround (body : Phrase (.nonTerminal .statement)) : Phrase (.nonTerminal .value) :=
  let parameters : Phrase (.nonTerminal .parameters) := .node 74 rfl .nil
  .node 61 rfl (.cons (.ofToken word hword) (.cons (.ofToken opening hopening)
    (.cons parameters (.cons (.ofToken closing hclosing) (.cons (.ofToken left hleft)
      (.cons (noStatements.behind body) (.cons (.ofToken right hright) .nil)))))))

@[simp] theorem tokens_functionAround (body : Phrase (.nonTerminal .statement)) :
    (functionAround word opening closing left right hword hopening hclosing hleft hright body).tokens
      = [word, opening, closing, left] ++ body.tokens ++ [right] := by
  simp [functionAround, noStatements, behind, tokens, Phrases.tokens]

theorem nearest_functionAround (h : body.Nearest) :
    (functionAround word opening closing left right hword hopening hclosing hleft hright
      body).Nearest := by
  simp [functionAround, noStatements, behind, Nearest, Phrases.Nearest, ifElseRule,
    nearest_ofToken, h]

/-- It means the function without parameters. -/
theorem exists_meaning_functionAround {node : Node}
    (hbody : body.meaning right.span.start = some (.node node)) (next : Nat) :
    ∃ span, (functionAround word opening closing left right hword hopening hclosing hleft hright
        body).meaning next
      = some (.node (.function [] (.block [node] span) span span)) := by
  simp only [functionAround, meaning, Phrases.meanings, noStatements, behind, tokens_ofToken,
    meaning_ofToken, Phrases.tokens, List.append_nil, List.cons_append, List.nil_append, startOf,
    hbody, Option.bind_some, Option.map_some]
  exact ⟨_, rfl⟩

end

section

variable (e : Phrase (.nonTerminal .expression)) (word semicolon : Token)
  (hword : word.kind = .returnWord) (hsemicolon : semicolon.kind = .semicolon)

/-- An expression as a statement. -/
def asStatement : Phrase (.nonTerminal .statement) :=
  .node 14 rfl (.cons e (.cons (.ofToken semicolon hsemicolon) .nil))

/-- A `return` that gives nothing. -/
def returning : Phrase (.nonTerminal .statement) :=
  .node 11 rfl (.cons (.ofToken word hword) (.cons (.ofToken semicolon hsemicolon) .nil))

@[simp] theorem tokens_asStatement :
    (e.asStatement semicolon hsemicolon).tokens = e.tokens ++ [semicolon] := by
  simp [asStatement, tokens, Phrases.tokens]

@[simp] theorem tokens_returning :
    (returning word semicolon hword hsemicolon).tokens = [word, semicolon] := by
  simp [returning, tokens, Phrases.tokens]

theorem nearest_asStatement (he : e.Nearest) : (e.asStatement semicolon hsemicolon).Nearest :=
  ⟨fun h => absurd h (by decide), he, nearest_ofToken _ _, trivial⟩

theorem nearest_returning : (returning word semicolon hword hsemicolon).Nearest :=
  ⟨fun h => absurd h (by decide), nearest_ofToken _ _, nearest_ofToken _ _, trivial⟩

theorem exists_meaning_asStatement {node : Node}
    (he : e.meaning semicolon.span.start = some (.node node)) (next : Nat) :
    ∃ span, (e.asStatement semicolon hsemicolon).meaning next
      = some (.node (.expression node span)) := by
  simp only [asStatement, meaning, Phrases.meanings, tokens_ofToken, meaning_ofToken,
    Phrases.tokens, List.append_nil, startOf, he, Option.bind_some, Option.map_some]
  exact ⟨_, rfl⟩

theorem exists_meaning_returning (next : Nat) :
    ∃ span, (returning word semicolon hword hsemicolon).meaning next
      = some (.node (.returnNothing span)) := by
  simp only [returning, meaning, Phrases.meanings, tokens_ofToken, meaning_ofToken,
    Phrases.tokens, Option.bind_some, Option.map_some]
  exact ⟨_, rfl⟩

end

end Phrase

-- ================================================================ a program

/-- A text with a loop, a branch and two calls, one of them of a function
that is written there. It logs once. -/
def logOnceText : String := "do if (true) function () \x7b $log('a'); \x7d(); while (false);"

/-- The tree of the text. -/
def Node.logOnce : Node :=
  let log : Node := .call (.identifier "$log" ⟨27, 4⟩) [.string "a" ⟨32, 3⟩] ⟨27, 9⟩
  let function : Node :=
    .function [] (.block [.expression log ⟨27, 10⟩] ⟨13, 26⟩) ⟨13, 26⟩ ⟨13, 26⟩
  let branch : Node :=
    .ifThen (.boolean true ⟨7, 4⟩) (.expression (.call function [] ⟨13, 28⟩) ⟨13, 29⟩) ⟨3, 39⟩
  .block [.doLoop branch (.boolean false ⟨50, 5⟩) ⟨0, 57⟩] ⟨0, 57⟩

/-- The derivation of its tokens. -/
def Phrase.logOnce : Phrase (.nonTerminal .program) :=
  let yes : Phrase (.nonTerminal .value) :=
    .node 57 rfl (.cons (.token ⟨.trueWord, "true", ⟨7, 4⟩, ⟨1, 8⟩⟩) .nil)
  let no : Phrase (.nonTerminal .value) :=
    .node 58 rfl (.cons (.token ⟨.falseWord, "false", ⟨50, 5⟩, ⟨1, 51⟩⟩) .nil)
  let log : Phrase (.nonTerminal .value) :=
    .node 59 rfl (.cons (.token ⟨.identifier, "$log", ⟨27, 4⟩, ⟨1, 28⟩⟩) .nil)
  let letter : Phrase (.nonTerminal .value) :=
    .node 56 rfl (.cons (.token ⟨.string, "'a'", ⟨32, 3⟩, ⟨1, 33⟩⟩) .nil)
  let logging : Phrase (.nonTerminal .expression) :=
    log.callOf ⟨.leftParen, "(", ⟨31, 1⟩, ⟨1, 32⟩⟩
      (.node 71 rfl (.cons (.node 73 rfl (.cons letter.ofValue .nil)) .nil))
      ⟨.rightParen, ")", ⟨35, 1⟩, ⟨1, 36⟩⟩ rfl rfl
  let function : Phrase (.nonTerminal .value) :=
    functionAround ⟨.functionWord, "function", ⟨13, 8⟩, ⟨1, 14⟩⟩ ⟨.leftParen, "(", ⟨22, 1⟩, ⟨1, 23⟩⟩
      ⟨.rightParen, ")", ⟨23, 1⟩, ⟨1, 24⟩⟩ ⟨.leftBrace, "\x7b", ⟨25, 1⟩, ⟨1, 26⟩⟩
      ⟨.rightBrace, "\x7d", ⟨38, 1⟩, ⟨1, 39⟩⟩ rfl rfl rfl rfl rfl
      (logging.asStatement ⟨.semicolon, ";", ⟨36, 1⟩, ⟨1, 37⟩⟩ rfl)
  let calling : Phrase (.nonTerminal .expression) :=
    function.callOf ⟨.leftParen, "(", ⟨39, 1⟩, ⟨1, 40⟩⟩ (.node 70 rfl .nil)
      ⟨.rightParen, ")", ⟨40, 1⟩, ⟨1, 41⟩⟩ rfl rfl
  let branch : Phrase (.nonTerminal .statement) := .node 4 rfl
    (.cons (.token ⟨.ifWord, "if", ⟨3, 2⟩, ⟨1, 4⟩⟩)
      (.cons (.token ⟨.leftParen, "(", ⟨6, 1⟩, ⟨1, 7⟩⟩) (.cons yes.ofValue
        (.cons (.token ⟨.rightParen, ")", ⟨11, 1⟩, ⟨1, 12⟩⟩)
          (.cons (calling.asStatement ⟨.semicolon, ";", ⟨41, 1⟩, ⟨1, 42⟩⟩ rfl) .nil)))))
  let loop : Phrase (.nonTerminal .statement) := .node 7 rfl
    (.cons (.token ⟨.doWord, "do", ⟨0, 2⟩, ⟨1, 1⟩⟩) (.cons branch
      (.cons (.token ⟨.whileWord, "while", ⟨43, 5⟩, ⟨1, 44⟩⟩)
        (.cons (.token ⟨.leftParen, "(", ⟨49, 1⟩, ⟨1, 50⟩⟩) (.cons no.ofValue
          (.cons (.token ⟨.rightParen, ")", ⟨55, 1⟩, ⟨1, 56⟩⟩)
            (.cons (.token ⟨.semicolon, ";", ⟨56, 1⟩, ⟨1, 57⟩⟩) .nil)))))))
  program (noStatements.behind loop)

theorem nearest_logOnce : Phrase.logOnce.Nearest := by
  simp [Phrase.logOnce, Phrase.functionAround, Phrase.program, Phrase.behind, Phrase.noStatements, Phrase.asStatement,
    Phrase.callOf, Phrase.ofValue, Phrase.ofAccess, Phrase.Nearest, Phrases.Nearest, ifElseRule,
    Phrase.nearest_ofToken]

theorem meaning_logOnce : Phrase.logOnce.meaning logOnceText.utf8ByteSize = some (.node .logOnce) := by
  have hsize : logOnceText.utf8ByteSize = 57 := by decide +kernel
  rw [hsize]
  rfl

theorem scan_logOnce : Token.scan logOnceText
    = Phrase.logOnce.tokens ++ [⟨.endOfInput, "", ⟨57, 0⟩, ⟨1, 58⟩⟩] := by
  rw [Token.scan_eq]
  decide +kernel

end BoardScript
