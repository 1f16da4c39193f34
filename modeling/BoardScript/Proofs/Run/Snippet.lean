/-
Expressions that are evaluated by themselves. An expression is evaluated by
wrapping its text in a function and calling that. Where the tokens of the
text between those of the wrapper are an expression, the program is the
function alone (`parse_wrapped`): running it makes a closure and leaves every
scope as it was (`makes_action`), and so does calling the closure
(`snippet_keeps_scopes`). But the text is not looked at before it is wrapped.
One that ends the function and begins another is a program of more than one
statement, and the statements between the functions bind global variables
(`snippet_binds_global`).
-/
import BoardScript.Proofs.Run.Compiled
import BoardScript.Proofs.Run.Guard

namespace BoardScript

open Machine

-- ========================================================= making a closure

/-- An end on a machine with the same scopes: in a closure, or without a
value. -/
def Makes (m : Machine) : EStateM.Result Unwind Machine Value → Prop
  | .ok v n => n.scopes = m.scopes ∧ ∃ c, v = .closure c
  | .error e n => n.scopes = m.scopes ∧ ∀ v, e ≠ .returned v

/-- A question whether to go on leaves the scopes alone, and returns
nothing. -/
theorem scopes_checkCancelled (span : Span) (m : Machine) :
    (∃ n, checkCancelled span m = .ok () n ∧ n.scopes = m.scopes) ∨
    ∃ f n, checkCancelled span m = .error (.failed f) n ∧ n.scopes = m.scopes := by
  unfold checkCancelled
  split
  · split
    · exact .inr ⟨_, _, rfl, rfl⟩
    · exact .inl ⟨_, rfl, rfl⟩
  · exact .inr ⟨_, _, rfl, rfl⟩
  · split
    · exact .inr ⟨_, _, rfl, rfl⟩
    · exact .inl ⟨_, rfl, rfl⟩

theorem Makes.of_scopes {m n : Machine} (h : n.scopes = m.scopes)
    {r : EStateM.Result Unwind Machine Value} (hr : Makes n r) : Makes m r := by
  cases r with
  | ok v k => exact ⟨hr.1.trans h, hr.2⟩
  | error e k => exact ⟨hr.1.trans h, hr.2⟩

theorem makes_asking {x : Eval Value} (hx : ∀ m, Makes m (x m)) (span : Span) (m : Machine) :
    Makes m ((checkCancelled span >>= fun _ => x) m) := by
  simp only [bind, EStateM.bind]
  rcases scopes_checkCancelled span m with ⟨n, hn, hscopes⟩ | ⟨f, n, hn, hscopes⟩
  · rw [hn]
    exact (hx n).of_scopes hscopes
  · rw [hn]
    exact ⟨hscopes, fun _ h => nomatch h⟩

theorem makes_makeClosure (literal : FunctionLiteral) (compiled : Option Chunk) (source : Source)
    (m : Machine) : Makes m (makeClosure literal compiled source m) := by
  rw [makeClosure_eq]
  cases literal.notFormula with
  | some node => exact ⟨rfl, fun _ h => by cases h⟩
  | none => exact ⟨rfl, _, rfl⟩

/-- What is made can be looked at. -/
theorem Makes.bind {m : Machine} {x : Eval Value} {k : Value → Eval Value} (hx : Makes m (x m))
    (hk : ∀ c n, Makes n (k (.closure c) n)) : Makes m ((x >>= k) m) := by
  show Makes m (EStateM.bind x k m)
  unfold EStateM.bind
  cases hr : x m with
  | error e n =>
      rw [hr] at hx
      exact hx
  | ok v n =>
      rw [hr] at hx
      obtain ⟨hscopes, c, rfl⟩ := hx
      exact (hk c n).of_scopes hscopes

theorem makes_closure (c : Closure) (m : Machine) : Makes m ((pure (.closure c) : Eval Value) m) :=
  ⟨rfl, c, rfl⟩

theorem makes_exhausted (m : Machine) : Makes m ((throw .exhausted : Eval Value) m) :=
  ⟨rfl, fun _ h => nomatch h⟩

-- ==================================================== running the function

variable {body : Node} {literal statement whole : Span}

theorem makes_eval (env : Env) (hask : env.ask = checkCancelled) (m : Machine) :
    Makes m ((body.wrapped literal statement whole).eval env none m) := by
  simp only [Node.wrapped, Node.eval, evalStatements, hask]
  exact makes_asking (makes_asking (makes_asking (makes_makeClosure _ _ _) _) _) _ m

/-- The code makes the closure with one instruction and ends with another. -/
theorem makes_run {env : Env} (hask : env.ask = checkCancelled) {source : Source}
    (hsource : env.source = source)
    (hproper : (body.wrapped literal statement whole).Proper Lexical) {chunk : Chunk}
    (hchunk : compileScript source (body.wrapped literal statement whole) = .ok chunk) (m : Machine) :
    Makes m (chunk.run env m) := by
  have hplan : scriptPlan source env.fuel (body.wrapped literal statement whole)
      = .act literal (makeClosure ⟨false, [], .block [body] literal, literal⟩
          (FunctionLiteral.compile source ⟨false, [], .block [body] literal, literal⟩).toOption source)
          (steady_makeClosure _ _ _) fun v => .done whole (pure v) (Steady.pure v) := by
    rw [scriptPlan, Node.wrapped]
    simp only [Node.plan, List.isEmpty_cons, planStatements, Bool.false_eq_true, if_false]
    rfl
  rw [script_run_eq hproper hchunk hsource, Plan.runWithin, hplan]
  have hmake := makes_makeClosure ⟨false, [], .block [body] literal, literal⟩
    (FunctionLiteral.compile source ⟨false, [], .block [body] literal, literal⟩).toOption source
  rcases env.fuel with - | - | fuel
  · exact makes_exhausted m
  · show Makes m ((env.ask literal >>= fun _ => _ >>= fun _ => throw .exhausted) m)
    rw [hask]
    exact makes_asking (fun m => (hmake m).bind fun _ => makes_exhausted) _ m
  · show Makes m ((env.ask literal >>= fun _ => _ >>= fun v => env.ask whole >>= fun _ => pure v) m)
    rw [hask]
    exact makes_asking (fun m => (hmake m).bind fun c => makes_asking (makes_closure c) _) _ m

theorem makes_action (m : Machine) (turns : Nat) (source : Source)
    (hproper : (body.wrapped literal statement whole).Proper Lexical) (n : Machine) :
    Makes n (m.action .standard turns source (body.wrapped literal statement whole) n) := by
  unfold Machine.action
  cases m.options.mode with
  | tree => exact makes_eval _ rfl _
  | compiled =>
      cases hchunk : compileScript source (body.wrapped literal statement whole) with
      | ok chunk => exact makes_run (show (m.environment .standard turns source).ask = _ from rfl) rfl hproper hchunk _
      | error cause => exact ⟨rfl, fun _ h => nomatch h⟩

/-- What a run comes to that makes a closure. -/
theorem Makes.outcome {m : Machine} {x : Eval Value} (h : Makes m.enterRun (x m.enterRun)) :
    (outcome (always x (leaveRun m.scopes.depth)) m.enterRun).2.scopes = m.scopes ∧
    ∀ v, (Machine.outcome (always x (leaveRun m.scopes.depth)) m.enterRun).1 = .ok v →
      ∃ c, v = .closure c := by
  have hscopes (n : Machine) (hn : n.scopes = m.enterRun.scopes) :
      (leaveRun m.scopes.depth n).scopes = m.scopes := by
    rw [leaveRun, hn, enterRun_scopes, Scopes.unwindTo_depth]
  unfold Machine.outcome always
  generalize x m.enterRun = r at h ⊢
  cases r with
  | ok v n => exact ⟨hscopes n h.1, fun w hw => by cases hw; exact h.2⟩
  | error e n =>
      cases e with
      | returned v => exact absurd rfl (h.2 v)
      | failed error => exact ⟨hscopes n h.1, fun _ h => by cases h⟩
      | exhausted => exact ⟨hscopes n h.1, fun _ h => by cases h⟩

-- ======================================================== calling the closure

/-- A call keeps the scopes that there were before it. -/
theorem callValue_keeps {m n : Machine} (hscopes : n.scopes = m.scopes) (turns : Nat) (source : Source)
    (c : Closure) (site : CallSite) {scope : ScopeId} (hscope : m.scopes.contains scope = true) :
    (outcome (callValue (n.environment .standard turns source).call (.closure c) [] none site) n).2.scopes.table[scope]?
      = m.scopes.table[scope]? := by
  rw [outcome_snd, ← hscopes]
  rw [← hscopes] at hscope
  show (after (callClosure .standard turns (n.options.maxCallDepth + 1) c [] site n)).scopes.table[scope]? = _
  rw [callClosure_succ]
  split
  · rfl
  split
  · rw [after_onMachine]
    exact kept_leave (later_body turns _ c (n.enter c [])) (of_decide_eq_true hscope)
  · rfl

theorem callResult_keeps (m : Machine) (turns : Nat) (source : Source)
    (hproper : (body.wrapped literal statement whole).Proper Lexical) {scope : ScopeId}
    (hscope : m.scopes.contains scope = true) :
    (m.callResult .standard turns source (.ok (body.wrapped literal statement whole))).2.scopes.table[scope]?
      = m.scopes.table[scope]? := by
  have hmade := Makes.outcome (makes_action m turns source hproper m.enterRun)
  rw [Machine.callResult, Machine.executeHooked]
  dsimp only
  generalize outcome _ _ = ended at hmade ⊢
  obtain ⟨result, n⟩ := ended
  cases result with
  | error failure => exact congrArg (fun s : Scopes => s.table[scope]?) hmade.1
  | ok function =>
      obtain ⟨c, rfl⟩ := hmade.2 function rfl
      exact callValue_keeps hmade.1 turns source c _ hscope

theorem Machine.snippetWithin_eq (m : Machine) (turns : Nat) (expression : String) :
    m.snippetWithin turns expression
      = m.callResult .standard turns (.ofText (snippetText expression))
          (parseProgram m.options.parsing (.ofText (snippetText expression))) := by
  rw [snippetWithin, snippetHooked]

/-- An expression is evaluated without binding anything. A text that does
not fit into the function has its errors reported, and nothing is done. If
the tokens of a text inside the function are an expression, then the program
is one statement, a function without parameters that gives the expression
back, and evaluating it keeps what every scope binds, the global one among
them. -/
theorem snippet_keeps_scopes (m : Machine) (turns : Nat) (expression : String) :
    let source := Source.ofText (snippetText expression)
    (∀ failure, parseProgram m.options.parsing source = .error failure →
      m.snippetWithin turns expression = (.error failure, m)) ∧
    ∀ inner, (Token.scan source.text).map (·.kind) = openingKinds ++ inner ++ closingKinds →
      grammar.Derives [.nonterminal .expression] (inner.map .terminal) →
      (∃ value given literal statement whole, parseProgram m.options.parsing source
        = .ok ((Node.returnValue value given).wrapped literal statement whole)) ∧
      ∀ scope, m.scopes.contains scope = true →
        (m.snippetWithin turns expression).2.scopes.table[scope]? = m.scopes.table[scope]? := by
  intro source
  constructor
  · intro failure hfailed
    have hcalled := m.snippetWithin_eq turns expression
    rw [hcalled, hfailed, callResult]
  · intro inner hkinds hinner
    obtain ⟨value, given, literal, statement, whole, hparse⟩ :=
      parse_wrapped m.options.parsing source hkinds hinner
    have hroot : parseProgram m.options.parsing source
        = .ok ((Node.returnValue value given).wrapped literal statement whole) := by
      rw [parseProgram, hparse]
      rfl
    refine ⟨⟨value, given, literal, statement, whole, hroot⟩, fun scope hscope => ?_⟩
    rw [snippetWithin_eq, hroot]
    exact callResult_keeps m turns source (proper_of_parse hparse).2 hscope

/-- The tokens of the function that gives one back. -/
theorem scan_snippet_one : Token.scan (snippetText "1") =
    [⟨.functionWord, "function", ⟨0, 8⟩, ⟨1, 1⟩⟩, ⟨.leftParen, "(", ⟨9, 1⟩, ⟨1, 10⟩⟩,
     ⟨.rightParen, ")", ⟨10, 1⟩, ⟨1, 11⟩⟩, ⟨.leftBrace, "\x7b", ⟨12, 1⟩, ⟨1, 13⟩⟩,
     ⟨.returnWord, "return", ⟨14, 6⟩, ⟨1, 15⟩⟩, ⟨.integer, "1", ⟨21, 1⟩, ⟨1, 22⟩⟩,
     ⟨.semicolon, ";", ⟨22, 1⟩, ⟨1, 23⟩⟩,
     ⟨.rightBrace, "\x7d", ⟨24, 1⟩, ⟨1, 25⟩⟩, ⟨.semicolon, ";", ⟨25, 1⟩, ⟨1, 26⟩⟩,
     ⟨.endOfInput, "", ⟨26, 0⟩, ⟨1, 27⟩⟩] := by
  have htext : snippetText "1" = "function () \x7b return 1; \x7d;" := rfl
  rw [htext, Token.scan_eq]
  cbv

theorem snippet_keeps_scopes_one :
    (Token.scan (snippetText "1")).map (·.kind) = openingKinds ++ [.integer] ++ closingKinds ∧
      grammar.Derives [.nonterminal .expression] [.terminal .integer] ∧
      (Machine.withBuiltins.snippetWithin 1 "1").2.scopes.table[Scopes.globalId]?
        = Machine.withBuiltins.scopes.table[Scopes.globalId]? := by
  have hkinds : (Token.scan (snippetText "1")).map (·.kind)
      = openingKinds ++ [.integer] ++ closingKinds := by
    rw [scan_snippet_one]
    rfl
  have hderives : grammar.Derives [.nonterminal .expression] [.terminal .integer] :=
    (Phrase.ofValue (.node 54 rfl (.cons (.token ⟨.integer, "1", ⟨21, 1⟩, ⟨1, 22⟩⟩) .nil))).derives
  exact ⟨hkinds, hderives,
    ((snippet_keeps_scopes .withBuiltins 1 "1").2 _ hkinds hderives).2 Scopes.globalId rfl⟩

-- ===================================================== a text that gets out

/-- A text that ends the function that it is put into, binds a variable and
begins a function again. -/
def intruding : String := "; \x7d; x = true; function () \x7b return"

/-- The tokens of the two functions and of the assignment between them. -/
theorem scan_intruding : Token.scan (snippetText intruding) =
    [⟨.functionWord, "function", ⟨0, 8⟩, ⟨1, 1⟩⟩, ⟨.leftParen, "(", ⟨9, 1⟩, ⟨1, 10⟩⟩,
     ⟨.rightParen, ")", ⟨10, 1⟩, ⟨1, 11⟩⟩, ⟨.leftBrace, "\x7b", ⟨12, 1⟩, ⟨1, 13⟩⟩,
     ⟨.returnWord, "return", ⟨14, 6⟩, ⟨1, 15⟩⟩, ⟨.semicolon, ";", ⟨21, 1⟩, ⟨1, 22⟩⟩,
     ⟨.rightBrace, "\x7d", ⟨23, 1⟩, ⟨1, 24⟩⟩, ⟨.semicolon, ";", ⟨24, 1⟩, ⟨1, 25⟩⟩,
     ⟨.identifier, "x", ⟨26, 1⟩, ⟨1, 27⟩⟩, ⟨.assign, "=", ⟨28, 1⟩, ⟨1, 29⟩⟩,
     ⟨.trueWord, "true", ⟨30, 4⟩, ⟨1, 31⟩⟩, ⟨.semicolon, ";", ⟨34, 1⟩, ⟨1, 35⟩⟩,
     ⟨.functionWord, "function", ⟨36, 8⟩, ⟨1, 37⟩⟩, ⟨.leftParen, "(", ⟨45, 1⟩, ⟨1, 46⟩⟩,
     ⟨.rightParen, ")", ⟨46, 1⟩, ⟨1, 47⟩⟩, ⟨.leftBrace, "\x7b", ⟨48, 1⟩, ⟨1, 49⟩⟩,
     ⟨.returnWord, "return", ⟨50, 6⟩, ⟨1, 51⟩⟩, ⟨.semicolon, ";", ⟨56, 1⟩, ⟨1, 57⟩⟩,
     ⟨.rightBrace, "\x7d", ⟨58, 1⟩, ⟨1, 59⟩⟩, ⟨.semicolon, ";", ⟨59, 1⟩, ⟨1, 60⟩⟩,
     ⟨.endOfInput, "", ⟨60, 0⟩, ⟨1, 61⟩⟩] := by
  have htext : snippetText intruding
      = "function () \x7b return ; \x7d; x = true; function () \x7b return; \x7d;" := rfl
  rw [htext, Token.scan_eq]
  cbv

/-- A function that returns nothing, as a statement. -/
def Node.returning (given literal statement : Span) : Node :=
  .expression (.function [] (.block [.returnNothing given] literal) literal literal) statement

/-- A function that returns nothing, written with these tokens. -/
theorem exists_meaning_function (w : Wrapping) (word semicolon : Token) (hword : word.kind = .returnWord)
    (hsemicolon : semicolon.kind = .semicolon) (next : Nat) :
    ∃ d : Phrase (.nonTerminal .statement), d.Nearest ∧ d.tokens = w.around [word, semicolon] ∧
      ∃ given literal statement, d.meaning next = some (.node (.returning given literal statement)) := by
  obtain ⟨given, hbody⟩ :=
    Phrase.exists_meaning_returning word semicolon hword hsemicolon w.right.span.start
  refine ⟨w.statement (.returning word semicolon hword hsemicolon),
    w.nearest_statement (Phrase.nearest_returning word semicolon hword hsemicolon), ?_, given,
    w.exists_meaning_statement _ hbody next⟩
  rw [w.tokens_statement, Phrase.tokens_returning]

/-- An assignment of a truth to a variable, written with these tokens. -/
theorem exists_meaning_assigning (next : Nat) :
    ∃ d : Phrase (.nonTerminal .statement), d.Nearest ∧
      d.tokens = [⟨.identifier, "x", ⟨26, 1⟩, ⟨1, 27⟩⟩, ⟨.assign, "=", ⟨28, 1⟩, ⟨1, 29⟩⟩,
        ⟨.trueWord, "true", ⟨30, 4⟩, ⟨1, 31⟩⟩, ⟨.semicolon, ";", ⟨34, 1⟩, ⟨1, 35⟩⟩] ∧
      ∃ name value span, d.meaning next = some (.node (.assign ⟨"x", name⟩ (.boolean true value) span)) := by
  let target : Phrase (.nonTerminal .target) :=
    .node 18 rfl (.cons (.token ⟨.identifier, "x", ⟨26, 1⟩, ⟨1, 27⟩⟩) .nil)
  let value : Phrase (.nonTerminal .value) :=
    .node 57 rfl (.cons (.token ⟨.trueWord, "true", ⟨30, 4⟩, ⟨1, 31⟩⟩) .nil)
  let assignment : Phrase (.nonTerminal .assignment) :=
    .node 17 rfl (.cons target (.cons (.token ⟨.assign, "=", ⟨28, 1⟩, ⟨1, 29⟩⟩)
      (.cons value.ofValue .nil)))
  let statement : Phrase (.nonTerminal .statement) :=
    .node 13 rfl (.cons assignment (.cons (.token ⟨.semicolon, ";", ⟨34, 1⟩, ⟨1, 35⟩⟩) .nil))
  have htokens : statement.tokens = [⟨.identifier, "x", ⟨26, 1⟩, ⟨1, 27⟩⟩,
      ⟨.assign, "=", ⟨28, 1⟩, ⟨1, 29⟩⟩, ⟨.trueWord, "true", ⟨30, 4⟩, ⟨1, 31⟩⟩,
      ⟨.semicolon, ";", ⟨34, 1⟩, ⟨1, 35⟩⟩] := by
    simp only [statement, assignment, target, Phrase.tokens, Phrases.tokens]
    rw [Phrase.tokens_ofValue]
    rfl
  have hmeaning : ∃ name value span, statement.meaning next
      = some (.node (.assign ⟨"x", name⟩ (.boolean true value) span)) := by
    simp only [statement, assignment, target, value, Phrase.meaning, Phrases.meanings,
      Option.bind_some, Option.map_some]
    exact ⟨_, _, _, rfl⟩
  have hvalue : value.ofValue.Nearest :=
    Phrase.nearest_ofValue ⟨fun e => absurd e (by decide), trivial, trivial⟩
  have hnear : statement.Nearest :=
    ⟨fun e => absurd e (by decide), ⟨fun e => absurd e (by decide),
      ⟨fun e => absurd e (by decide), trivial, trivial⟩, trivial, hvalue, trivial⟩, trivial, trivial⟩
  exact ⟨statement, hnear, htokens, hmeaning⟩

/-- The text is parsed to three statements. -/
theorem parse_intruding (options : ParseOptions) :
    ∃ given literal statement name value assigned given' literal' statement' whole,
      parse options (.ofText (snippetText intruding))
        = ⟨some (.block [.returning given literal statement,
            .assign ⟨"x", name⟩ (.boolean true value) assigned,
            .returning given' literal' statement'] whole), []⟩ := by
  obtain ⟨first, hfirst, hfirstTokens, given, literal, statement, hmeansFirst⟩ :=
    exists_meaning_function
      ⟨⟨.functionWord, "function", ⟨0, 8⟩, ⟨1, 1⟩⟩, ⟨.leftParen, "(", ⟨9, 1⟩, ⟨1, 10⟩⟩,
        ⟨.rightParen, ")", ⟨10, 1⟩, ⟨1, 11⟩⟩, ⟨.leftBrace, "\x7b", ⟨12, 1⟩, ⟨1, 13⟩⟩,
        ⟨.rightBrace, "\x7d", ⟨23, 1⟩, ⟨1, 24⟩⟩, ⟨.semicolon, ";", ⟨24, 1⟩, ⟨1, 25⟩⟩,
        rfl, rfl, rfl, rfl, rfl, rfl⟩
      ⟨.returnWord, "return", ⟨14, 6⟩, ⟨1, 15⟩⟩ ⟨.semicolon, ";", ⟨21, 1⟩, ⟨1, 22⟩⟩ rfl rfl 26
  obtain ⟨between, hbetween, hbetweenTokens, name, value, assigned, hmeansBetween⟩ :=
    exists_meaning_assigning 36
  obtain ⟨last, hlast, hlastTokens, given', literal', statement', hmeansLast⟩ :=
    exists_meaning_function
      ⟨⟨.functionWord, "function", ⟨36, 8⟩, ⟨1, 37⟩⟩, ⟨.leftParen, "(", ⟨45, 1⟩, ⟨1, 46⟩⟩,
        ⟨.rightParen, ")", ⟨46, 1⟩, ⟨1, 47⟩⟩, ⟨.leftBrace, "\x7b", ⟨48, 1⟩, ⟨1, 49⟩⟩,
        ⟨.rightBrace, "\x7d", ⟨58, 1⟩, ⟨1, 59⟩⟩, ⟨.semicolon, ";", ⟨59, 1⟩, ⟨1, 60⟩⟩,
        rfl, rfl, rfl, rfl, rfl, rfl⟩
      ⟨.returnWord, "return", ⟨50, 6⟩, ⟨1, 51⟩⟩ ⟨.semicolon, ";", ⟨56, 1⟩, ⟨1, 57⟩⟩ rfl rfl 60
  let statements := ((Phrase.noStatements.behind first).behind between).behind last
  have hmeaning : statements.meaning 60 = some (.nodes [.returning given literal statement,
      .assign ⟨"x", name⟩ (.boolean true value) assigned, .returning given' literal' statement']) := by
    refine Phrase.meaning_behind (Phrase.meaning_behind (Phrase.meaning_behind
      (Phrase.meaning_noStatements _) ?_) ?_) hmeansLast
    · rw [hlastTokens, hbetweenTokens]
      exact hmeansFirst
    · rw [hlastTokens]
      exact hmeansBetween
  have hnear : statements.Nearest := Phrase.nearest_behind (Phrase.nearest_behind
    (Phrase.nearest_behind Phrase.nearest_noStatements hfirst) hbetween) hlast
  obtain ⟨whole, hparse⟩ := parseTokens_statements options (.ofText (snippetText intruding)) hnear
    (show (⟨.endOfInput, "", ⟨60, 0⟩, ⟨1, 61⟩⟩ : Token).kind = .endOfInput from rfl) hmeaning
  refine ⟨given, literal, statement, name, value, assigned, given', literal', statement', whole, ?_⟩
  rw [← hparse, parse, show (Source.ofText (snippetText intruding)).text = snippetText intruding from rfl,
    scan_intruding]
  simp [statements, hfirstTokens, hbetweenTokens, hlastTokens, Wrapping.around]

/-- The text has no syntax errors, yet the program is not a function alone.
The assignment in it binds the variable where nothing was bound before. -/
theorem snippet_binds_global :
    (∃ root, parseProgram Machine.withBuiltins.options.parsing (.ofText (snippetText intruding))
        = .ok root ∧
      ∀ body literal statement whole, root ≠ Node.wrapped body literal statement whole) ∧
    Machine.withBuiltins.scopes.table[Scopes.globalId]? = some ⟨none, []⟩ ∧
    (Machine.withBuiltins.snippetWithin 1 intruding).2.scopes.table[Scopes.globalId]?
      = some ⟨none, [("x", .boolean true)]⟩ := by
  obtain ⟨given, literal, statement, name, value, assigned, given', literal', statement', whole,
    hparse⟩ := parse_intruding {}
  have hroot : parseProgram Machine.withBuiltins.options.parsing (.ofText (snippetText intruding))
      = .ok (.block [.returning given literal statement,
          .assign ⟨"x", name⟩ (.boolean true value) assigned,
          .returning given' literal' statement'] whole) := by
    rw [parseProgram, show Machine.withBuiltins.options.parsing = {} from rfl, hparse]
    rfl
  refine ⟨⟨_, hroot, fun _ _ _ _ h => by cases h⟩, rfl, ?_⟩
  -- the run binds the variable and makes both functions, and then the last is called
  let source := Source.ofText (snippetText intruding)
  let body : Node := .block [.returnNothing given'] literal'
  let bound : Machine := { Machine.withBuiltins with
    nextClosure := 1
    scopes := ⟨#[⟨none, [("x", .boolean true)]⟩], Scopes.globalId, #[]⟩ }
  let function : Closure := ⟨1, ⟨false, [], body, literal'⟩, 0,
    bound.dependencies ⟨false, [], body, literal'⟩, none, source⟩
  have hrun : Machine.withBuiltins.executeHooked .standard 1 source
      (.block [.returning given literal statement, .assign ⟨"x", name⟩ (.boolean true value) assigned,
        .returning given' literal' statement'] whole)
        = (.ok (.closure function), { bound with nextClosure := 2 }) := by
    simp only [Machine.executeHooked, Machine.action, Node.returning, Node.eval, evalStatements]
    rfl
  rw [snippetWithin_eq, hroot, Machine.callResult, hrun]
  simp only [callValue, Machine.environment, callClosure, runBody, Node.eval, evalStatements, body,
    function]
  rfl

end BoardScript
