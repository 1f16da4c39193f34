/-
Parse tables: what to do in a state on seeing a token kind, and where to
go after a reduction. Where two actions compete for one entry, shifting
wins over reducing and the earlier production over the later; each such
choice is kept on record.
-/
import BoardScript.Grammar.Automaton

namespace BoardScript.Grammar

/-- What the parser does next. -/
inductive Action where
  | shift (state : StateId)
  | reduce (rule : Nat)
  | accept
deriving Repr, DecidableEq

/-- A choice between two actions for one entry. -/
structure Conflict where
  state : StateId
  lookahead : TokenKind
  chosen : Action
  discarded : Action
deriving Repr, DecidableEq

/-- The chosen and the discarded of two different actions. -/
def Action.choose (existing new : Action) : Action × Action :=
  match existing, new with
  | .shift _, _ => (existing, new)
  | .accept, _ => (existing, new)
  | _, .shift _ => (new, existing)
  | _, .accept => (new, existing)
  | .reduce a, .reduce b => if a ≤ b then (existing, new) else (new, existing)

/-- The entries of one state. -/
structure Row where
  actions : Array (Option Action)
  gotos : Array (Option StateId)

namespace Row

def empty : Row :=
  ⟨Array.replicate TokenKind.all.length none, Array.replicate NonTerminal.count none⟩

def action (row : Row) (kind : TokenKind) : Option Action := row.actions.getD kind.index none

def goto (row : Row) (n : NonTerminal) : Option StateId := row.gotos.getD n.index none

end Row

/-- The tables, one row a state, and the conflicts met on the way. -/
structure Tables where
  rows : Array Row
  conflicts : List Conflict

/-- Enters an action into the row of `state`, settling a conflict. -/
def enter (state : StateId) (row : Row × List Conflict) (kind : TokenKind) (action : Action) :
    Row × List Conflict :=
  let (entries, conflicts) := row
  match entries.action kind with
  | none => ({ entries with actions := entries.actions.set! kind.index (some action) }, conflicts)
  | some existing =>
      if existing = action then row
      else
        let (chosen, discarded) := existing.choose action
        ({ entries with actions := entries.actions.set! kind.index (some chosen) },
         conflicts ++ [⟨state, kind, chosen, discarded⟩])

/-- Enters a move of the automaton: a shift on a terminal, a place to go on
a nonterminal. -/
def enterMove (state : StateId) (row : Row × List Conflict) (move : Symbol × StateId) :
    Row × List Conflict :=
  match move.1 with
  | .terminal kind => enter state row kind (.shift move.2)
  | .nonTerminal n =>
      ({ row.1 with gotos := row.1.gotos.set! n.index (some move.2) }, row.2)

/-- Enters the reduction of an item read to its end, for every kind that
may follow it. Production zero read to its end is the whole input. -/
def enterReduction (g : Tabulated) (state : StateId) (row : Row × List Conflict)
    (entry : Item × KindSet) : Row × List Conflict :=
  let (item, following) := entry
  if (g.remaining item).isEmpty then
    let action := if item.rule = 0 then .accept else .reduce item.rule
    following.toList.foldl (fun row kind => enter state row kind action) row
  else row

namespace Tables

def row (g : Tabulated) (a : Automaton) (lookaheads : Lookaheads) (state : StateId) :
    Row × List Conflict :=
  let shifts := (a.moves.getD state []).foldl (enterMove state) (Row.empty, [])
  (closure g (lookaheads.kernel a state)).foldl (enterReduction g state) shifts

/-- The tables of a list of productions, of which the first is the start. -/
def ofProductions (productions : List Production) : Tables :=
  let g := Tabulated.ofProductions productions
  let a := Automaton.ofProductions g
  let lookaheads := Lookaheads.ofAutomaton g a
  let rows := (List.range a.kernels.size).map (row g a lookaheads)
  ⟨(rows.map (·.1)).toArray, rows.flatMap (·.2)⟩

def action (tables : Tables) (state : StateId) (kind : TokenKind) : Option Action :=
  tables.rows[state]?.bind (·.action kind)

def goto (tables : Tables) (state : StateId) (n : NonTerminal) : Option StateId :=
  tables.rows[state]?.bind (·.goto n)

/-- The kinds that have an action in a state, in declaration order. A text
is never asked for whitespace or for an unmatched character. -/
def expected (tables : Tables) (state : StateId) : List TokenKind :=
  TokenKind.all.filter fun kind =>
    kind != .whitespace && kind != .unmatched && (tables.action state kind).isSome

end Tables

end BoardScript.Grammar
