/-
What a nonterminal can begin with. For each nonterminal two facts are
gathered from the productions: whether it derives the empty sequence, and
which token kinds a sequence it derives can begin with. Both grow together
from nothing until another round over the productions adds nothing.
-/
import BoardScript.Grammar.Symbol

namespace BoardScript.Grammar

/-- How a sequence of symbols can start: with which kinds, and whether it
can be empty. -/
structure Start where
  first : KindSet
  nullable : Bool
deriving Repr, DecidableEq

namespace Start

/-- Nothing known: no first kind, not empty. -/
def nothing : Start := ⟨.empty, false⟩

instance : Inhabited Start := ⟨nothing⟩

/-- Both facts put together. -/
def join (a b : Start) : Start := ⟨a.first.union b.first, a.nullable || b.nullable⟩

end Start

/-- The facts for each nonterminal, by its place. -/
abbrev Starts := Array Start

namespace Starts

def nothing : Starts := Array.replicate NonTerminal.count Start.nothing

def of (starts : Starts) (n : NonTerminal) : Start := starts.getD n.index Start.nothing

/-- How a sequence can start, given the facts for nonterminals: the kinds
of its first symbol and, as long as all symbols so far can be empty, those
of the next. -/
def ofSequence (starts : Starts) : List Symbol → Start
  | [] => ⟨.empty, true⟩
  | .terminal kind :: _ => ⟨.single kind, false⟩
  | .nonTerminal n :: rest =>
      let here := starts.of n
      if here.nullable then
        let later := starts.ofSequence rest
        ⟨here.first.union later.first, later.nullable⟩
      else ⟨here.first, false⟩

/-- What one production adds to the facts for its head. -/
def addProduction (starts : Starts) (p : Production) : Starts :=
  starts.modify p.head.index (·.join (starts.ofSequence p.body))

/-- One round over all productions. -/
def addAll (productions : List Production) (starts : Starts) : Starts :=
  productions.foldl addProduction starts

/-- The facts for a list of productions. Every round but the last adds a
kind or the empty sequence to some nonterminal, which bounds the rounds. -/
def ofProductions (productions : List Production) : Starts :=
  settle (addAll productions) (NonTerminal.count * (TokenKind.all.length + 1) + 1) nothing

end Starts

end BoardScript.Grammar
