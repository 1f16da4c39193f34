/-
The alphabet of grammars: token kinds as terminals, a fixed list of
nonterminals, and productions over both. Sets of token kinds are bit sets,
a kind's bit being its place in declaration order.
-/
import BoardScript.Token.Basic

namespace BoardScript.Grammar

/-- A nonterminal. -/
inductive NonTerminal where
  | accept
  | program
  | statements
  | statement
  | assignment
  | target
  | expression
  | disjunction
  | conjunction
  | comparison
  | sum
  | product
  | unary
  | power
  | access
  | value
  | object
  | properties
  | arguments
  | argumentList
  | parameters
  | parameterList
  | propertyName
deriving Repr, DecidableEq, Inhabited

/-- How many nonterminals there are. -/
def NonTerminal.count : Nat := 23

/-- The place of a nonterminal in declaration order. -/
def NonTerminal.index (n : NonTerminal) : Nat := n.ctorIdx

/-- A symbol of a production: a token kind or a nonterminal. -/
inductive Symbol where
  | terminal (kind : TokenKind)
  | nonTerminal (n : NonTerminal)
deriving Repr, DecidableEq, Inhabited

/-- A production: the nonterminal it is for and what that may consist of. -/
structure Production where
  head : NonTerminal
  body : List Symbol
deriving Repr, DecidableEq, Inhabited

-- ============================================================ sets of kinds

/-- A set of token kinds. -/
structure KindSet where
  bits : Nat
deriving Repr, DecidableEq, Inhabited

namespace KindSet

def empty : KindSet := ⟨0⟩

def single (kind : TokenKind) : KindSet := ⟨1 <<< kind.index⟩

def union (a b : KindSet) : KindSet := ⟨a.bits ||| b.bits⟩

def contains (s : KindSet) (kind : TokenKind) : Bool := s.bits.testBit kind.index

/-- The members in declaration order. -/
def toList (s : KindSet) : List TokenKind := TokenKind.all.filter s.contains

end KindSet

-- ============================================================ fixed points

/-- Applies `f` until it changes nothing, at most `rounds` times. -/
def settle {α : Type} [DecidableEq α] (f : α → α) : (rounds : Nat) → α → α
  | 0, x => x
  | rounds + 1, x =>
      let y := f x
      if y = x then x else settle f rounds y

end BoardScript.Grammar
