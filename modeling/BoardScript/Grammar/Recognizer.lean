/-
The shift-reduce driver by itself, for the tables of any productions. It
reads token kinds and keeps nothing of the symbols read but the states
behind them. It makes no attempt to recover: a kind without an action is
refused.
-/
import BoardScript.Grammar.Tables

namespace BoardScript.Grammar

/-- A driver at work. The states behind the symbols read stand above an
implicit bottom in state zero, the topmost first. The lookahead is the kind
to be read next. -/
structure Recognizer where
  states : List StateId
  lookahead : TokenKind
  rest : List TokenKind
deriving Repr, DecidableEq

/-- What one step of the driver leads to. -/
inductive Outcome where
  | next (r : Recognizer)
  | accepted
  | refused
  /-- there is too little on the stack, or nowhere to go -/
  | stuck
deriving Repr, DecidableEq

namespace Recognizer

/-- About to read kinds, of which the last is the end of input. -/
def start (kinds : List TokenKind) : Recognizer := ⟨[], kinds.headD .endOfInput, kinds.tail⟩

/-- The state behind the topmost symbol. -/
def top (states : List StateId) : StateId := states.headD 0

/-- Moves on to the next kind; the last one stays. -/
def shift (r : Recognizer) (state : StateId) : Recognizer :=
  match r.rest with
  | [] => { r with states := state :: r.states }
  | kind :: rest => ⟨state :: r.states, kind, rest⟩

variable (productions : List Production) (tables : Tables)

/-- Replaces the body of a production by its head. -/
def reduce (r : Recognizer) (p : Production) : Option Recognizer :=
  if p.body.length ≤ r.states.length then
    let states := r.states.drop p.body.length
    (tables.goto (top states) p.head).map fun state => { r with states := state :: states }
  else none

/-- One step. -/
def step (r : Recognizer) : Outcome :=
  match tables.action (top r.states) r.lookahead with
  | some (.shift state) => .next (r.shift state)
  | some (.reduce rule) =>
      match productions[rule]?.bind (r.reduce tables) with
      | some r => .next r
      | none => .stuck
  | some .accept => .accepted
  | none => .refused

/-- Steps until there is an answer; `none` when stuck or out of fuel. -/
def run : (fuel : Nat) → Recognizer → Option Bool
  | 0, _ => none
  | fuel + 1, r =>
      match r.step productions tables with
      | .next r => run fuel r
      | .accepted => some true
      | .refused => some false
      | .stuck => none

end Recognizer

end BoardScript.Grammar
