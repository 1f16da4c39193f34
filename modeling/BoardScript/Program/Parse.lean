/-
The parser: a shift-reduce machine over parse tables. The stack
holds, above an implicit bottom in state zero, one entry for each symbol
read: the state behind it, what it stands for, and its span if it has any
text.

On a token that has no action the error is recorded and the parser
recovers: it drops tokens until one of the states on the stack has an
action for the next, and drops the stack down to that state. A parser that
fails again on the very token at which it resumed skips that token without
recording it again. Recovery gives up at the end of input.

Interactive input may leave out the last semicolon: at the end of input,
where a semicolon would have an action, one of no width is supplied, once.
-/
import BoardScript.Program.Rules
import BoardScript.Text.Source
import BoardScript.Token.Scan

namespace BoardScript

open Grammar

/-- A token that the grammar does not allow where it stands. -/
structure SyntaxError where
  place : Span
  position : Position
  found : TokenKind
  expected : List TokenKind
deriving Repr

namespace SyntaxError

def offset (e : SyntaxError) : Nat := e.place.start

def message (e : SyntaxError) : String :=
  s!"Syntax error at line {e.position.line}, column {e.position.column}: unexpected {e.found.text}"

/-- What stands at the token in a report. -/
def label (e : SyntaxError) : String :=
  "expected " ++ ", ".intercalate (e.expected.map TokenKind.text)

end SyntaxError

/-- Whether the last semicolon may be left out. -/
structure ParseOptions where
  interactive : Bool := false
deriving Repr, DecidableEq

/-- A symbol read: the state behind it, what it stands for, its text. -/
structure StackEntry where
  state : StateId
  meaning : Meaning
  span : Option Span

/-- A parser at work. The lookahead is the token to be read next. -/
structure Parser where
  options : ParseOptions
  source : Source
  stack : List StackEntry
  lookahead : Token
  rest : List Token
  /-- whether the last semicolon has been supplied -/
  supplied : Bool
  /-- where the last error was -/
  lastError : Option Nat
  /-- whether a token was read since -/
  shifted : Bool
  errors : List SyntaxError

/-- What became of a parse: the program, unless recovery ran out of input,
and the errors in the order in which they were met. -/
structure Parsed where
  program : Option Node
  errors : List SyntaxError

/-- What one step of the parser leads to. -/
inductive ParseStep where
  | next (parser : Parser)
  | done (parsed : Parsed)
  /-- a rule was handed what it cannot use, or has nowhere to go -/
  | stuck

namespace Parser

def start (options : ParseOptions) (source : Source) (tokens : List Token) : Parser :=
  let atEnd := Token.mk .endOfInput "" (.before source.text.utf8ByteSize) ⟨1, 1⟩
  { options, source, stack := [], lookahead := tokens.headD atEnd, rest := tokens.tail,
    supplied := false, lastError := none, shifted := true, errors := [] }

/-- The state behind the topmost symbol. -/
def stateOf : List StackEntry → StateId
  | [] => 0
  | entry :: _ => entry.state

def state (p : Parser) : StateId := stateOf p.stack

/-- Moves on to the next token; the last one stays. -/
def advance (p : Parser) : Parser :=
  match p.rest with
  | [] => p
  | token :: rest => { p with lookahead := token, rest }

def shift (p : Parser) (state : StateId) : Parser :=
  let entry := ⟨state, .token p.lookahead, some p.lookahead.span⟩
  { p with stack := entry :: p.stack, shifted := true }.advance

variable (tables : Tables)

/-- Replaces the body of a rule by its head. The span of a phrase without
text is the empty one in front of the lookahead. -/
def reduce (p : Parser) (rule : Rule) : Option Parser := do
  let count := rule.production.body.length
  let popped := (p.stack.take count).reverse
  let rest := p.stack.drop count
  let covered := Span.coverAll (popped.filterMap (·.span))
  let span := covered.getD (.before p.lookahead.span.start)
  let meaning ← rule.build span (popped.map (·.meaning))
  let state ← tables.goto (stateOf rest) rule.production.head
  return { p with stack := ⟨state, meaning, covered⟩ :: rest }

def canSupplySemicolon (p : Parser) : Bool :=
  p.options.interactive && !p.supplied && p.lookahead.kind == .endOfInput &&
    (tables.action p.state .semicolon).isSome

/-- Puts a semicolon of no width in front of the lookahead. -/
def supplySemicolon (p : Parser) : Parser :=
  let semicolon := ⟨.semicolon, "", .before p.lookahead.span.start, p.lookahead.position⟩
  { p with lookahead := semicolon, rest := p.lookahead :: p.rest, supplied := true }

def recordError (p : Parser) : Parser :=
  let token := p.lookahead
  let error := ⟨token.span, p.source.position token.span.start, token.kind,
    tables.expected p.state⟩
  { p with errors := p.errors ++ [error] }

/-- How many symbols to drop before a state has an action for a kind. -/
def dropsUntil (kind : TokenKind) : List StackEntry → Option Nat
  | [] => if (tables.action 0 kind).isSome then some 0 else none
  | entry :: rest =>
      if (tables.action entry.state kind).isSome then some 0
      else (dropsUntil kind rest).map (· + 1)

/-- Drops tokens until the parser can resume; `none` at the end of input. -/
def resume (stack : List StackEntry) :
    Token → List Token → Option (List StackEntry × Token × List Token)
  | lookahead, rest =>
      if lookahead.kind = .endOfInput then none
      else match dropsUntil tables lookahead.kind stack, rest with
        | some drops, rest => some (stack.drop drops, lookahead, rest)
        | none, [] => none
        | none, token :: rest => resume stack token rest
termination_by _ rest => rest.length

/-- Recovers from a token without an action; `none` when input runs out. -/
def recover (p : Parser) : Except Parser Parser :=
  let offset := p.lookahead.span.start
  let repeated := !p.shifted && p.lastError == some offset
  let p := { p with lastError := some offset, shifted := false }
  let p := if repeated then p else p.recordError tables
  if repeated && p.lookahead.kind == .endOfInput then .error p
  else
    let p := if repeated then p.advance else p
    match resume tables p.stack p.lookahead p.rest with
    | none => .error p
    | some (stack, lookahead, rest) => .ok { p with stack, lookahead, rest }

/-- One step. -/
def step (p : Parser) : ParseStep :=
  match tables.action p.state p.lookahead.kind with
  | some (.shift state) => .next (p.shift state)
  | some (.reduce index) =>
      match rules[index]?.bind (p.reduce tables) with
      | some p => .next p
      | none => .stuck
  | some .accept =>
      match p.stack with
      | ⟨_, .node root, _⟩ :: _ => .done ⟨some root, p.errors⟩
      | _ => .stuck
  | none =>
      if p.canSupplySemicolon tables then .next p.supplySemicolon
      else match p.recover tables with
        | .ok p => .next p
        | .error p => .done ⟨none, p.errors⟩

/-- Steps until done; `none` when stuck or out of fuel. -/
def run : (fuel : Nat) → Parser → Option Parsed
  | 0, _ => none
  | fuel + 1, p =>
      match p.step tables with
      | .next p => run fuel p
      | .done parsed => some parsed
      | .stuck => none

end Parser

/-- A number of steps that suffices for so many tokens. Between two tokens
read or dropped there are at most as many reductions as symbols to take
from the stack and unit productions in a row. -/
def parseFuel (tokens : Nat) : Nat := 1000 * (tokens + 2)

/-- Parses tokens, of which the last is the end of input, with the tables
of the language. -/
def parseTokens (options : ParseOptions) (source : Source) (tokens : List Token) : Parsed :=
  ((Parser.start options source tokens).run tables (parseFuel tokens.length)).getD ⟨none, []⟩

/-- Parses a program text. -/
def parse (options : ParseOptions) (source : Source) : Parsed :=
  parseTokens options source (Token.scan source.text)

end BoardScript
