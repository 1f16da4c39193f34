/-
What a list of productions generates. The productions are read as the rules
of a context-free grammar, of which the symbols of a production are the
symbols (`generated`), so that rewriting, sentential forms and the language
are those of the library.

A parser does not see rewritings but the sequences of kinds that they end
in. `Yields` builds such a sequence along the symbols, one production for
each nonterminal, and is the same as rewriting to it (`yields_iff`).
-/
import BoardScript.Grammar.Symbol
import Mathlib.Computability.ContextFreeGrammar

namespace BoardScript

/-- A symbol of a rewriting rule. -/
abbrev Sign : Type := Symbol TokenKind Grammar.NonTerminal

/-- A symbol of a production as one of a rewriting rule. -/
def sign : Grammar.Symbol → Sign
  | .terminal kind => .terminal kind
  | .nonTerminal n => .nonterminal n

/-- A symbol of a rewriting rule as one of a production. -/
def ofSign : Sign → Grammar.Symbol
  | .terminal kind => .terminal kind
  | .nonterminal n => .nonTerminal n

@[simp] theorem ofSign_sign (symbol : Grammar.Symbol) : ofSign (sign symbol) = symbol := by
  cases symbol <;> rfl

theorem map_ofSign_sign (symbols : List Grammar.Symbol) :
    (symbols.map sign).map ofSign = symbols := by
  rw [List.map_map]
  exact (List.map_congr_left fun symbol _ => ofSign_sign symbol).trans (List.map_id symbols)

namespace Grammar

/-- The productions as a context-free grammar for programs. -/
@[reducible] def generated (productions : List Production) : ContextFreeGrammar TokenKind where
  NT := NonTerminal
  initial := .program
  rules := (productions.map fun p => ⟨p.head, p.body.map sign⟩).toFinset

variable {productions : List Production}

/-- A nonterminal can be rewritten by a production for it. -/
theorem produces_production {p : Production} (hp : p ∈ productions) :
    (generated productions).Produces [.nonterminal p.head] (p.body.map sign) :=
  ⟨_, List.mem_toFinset.2 (List.mem_map.2 ⟨p, hp, rfl⟩), .input_output⟩

/-- A step of rewriting replaces one nonterminal by the body of a production
for it. -/
theorem exists_of_produces {u v : List Sign} (h : (generated productions).Produces u v) :
    ∃ p ∈ productions, ∃ front back, u = front ++ [.nonterminal p.head] ++ back ∧
      v = front ++ p.body.map sign ++ back := by
  obtain ⟨rule, hrule, hrewrites⟩ := h
  obtain ⟨p, hp, rfl⟩ := List.mem_map.1 (List.mem_toFinset.1 hrule)
  obtain ⟨front, back, hu, hv⟩ := hrewrites.exists_parts
  exact ⟨p, hp, front, back, hu, hv⟩

/-- What stands side by side is rewritten side by side. -/
theorem derives_append {u u' v v' : List Sign} (h : (generated productions).Derives u u')
    (k : (generated productions).Derives v v') :
    (generated productions).Derives (u ++ v) (u' ++ v') :=
  (h.append_right v).trans (k.append_left u')

-- ========================================================== kinds derived

/-- The kinds that a sequence of symbols derives: a terminal stands for
itself, a nonterminal for what the body of one of its productions derives. -/
inductive Yields (productions : List Production) : List Symbol → List TokenKind → Prop
  | nil : Yields productions [] []
  | terminal (kind : TokenKind) {symbols : List Symbol} {kinds : List TokenKind}
      (rest : Yields productions symbols kinds) :
      Yields productions (.terminal kind :: symbols) (kind :: kinds)
  | nonTerminal {rule : Nat} {p : Production} (hp : productions[rule]? = some p)
      {symbols : List Symbol} {front back : List TokenKind}
      (body : Yields productions p.body front) (rest : Yields productions symbols back) :
      Yields productions (.nonTerminal p.head :: symbols) (front ++ back)

namespace Yields

theorem append {a b : List Symbol} {x y : List TokenKind} (ha : Yields productions a x)
    (hb : Yields productions b y) : Yields productions (a ++ b) (x ++ y) := by
  induction ha with
  | nil => exact hb
  | terminal kind _ ih => exact .terminal kind ih
  | nonTerminal hp body _ _ ih =>
      rw [List.append_assoc]
      exact .nonTerminal hp body ih

theorem split {a b : List Symbol} {kinds : List TokenKind} (h : Yields productions (a ++ b) kinds) :
    ∃ x y, kinds = x ++ y ∧ Yields productions a x ∧ Yields productions b y := by
  induction a generalizing kinds with
  | nil => exact ⟨[], kinds, rfl, .nil, h⟩
  | cons symbol a ih =>
      cases h with
      | terminal kind rest =>
          obtain ⟨x, y, rfl, hx, hy⟩ := ih rest
          exact ⟨kind :: x, y, rfl, .terminal kind hx, hy⟩
      | nonTerminal hp body rest =>
          obtain ⟨x, y, rfl, hx, hy⟩ := ih rest
          exact ⟨_, y, (List.append_assoc _ x y).symm, .nonTerminal hp body hx, hy⟩

/-- A nonterminal derives what the body of one of its productions does. -/
theorem node {rule : Nat} {p : Production} (hp : productions[rule]? = some p)
    {kinds : List TokenKind} (h : Yields productions p.body kinds) :
    Yields productions [.nonTerminal p.head] kinds := by
  rw [← List.append_nil kinds]
  exact .nonTerminal hp h .nil

/-- Kinds are derived from themselves. -/
theorem ofKinds (kinds : List TokenKind) : Yields productions (kinds.map .terminal) kinds := by
  induction kinds with
  | nil => exact .nil
  | cons kind kinds ih => exact .terminal kind ih

theorem derives {symbols : List Symbol} {kinds : List TokenKind}
    (h : Yields productions symbols kinds) :
    (generated productions).Derives (symbols.map sign) (kinds.map .terminal) := by
  induction h with
  | nil => exact .refl _
  | terminal kind _ ih => exact ih.append_left [.terminal kind]
  | nonTerminal hp _ _ hbody hrest =>
      rw [List.map_append]
      exact derives_append ((produces_production (List.mem_of_getElem? hp)).trans_derives hbody)
        hrest

/-- Undoing the steps of a rewriting one by one builds the derivation. -/
theorem ofDerives {u : List Sign} {kinds : List TokenKind}
    (h : (generated productions).Derives u (kinds.map .terminal)) :
    Yields productions (u.map ofSign) kinds := by
  induction h using Relation.ReflTransGen.head_induction_on with
  | refl =>
      rw [List.map_map]
      exact ofKinds kinds
  | head hstep _ ih =>
      obtain ⟨p, hp, front, back, rfl, rfl⟩ := exists_of_produces hstep
      obtain ⟨rule, hrule⟩ := List.mem_iff_getElem?.1 hp
      rw [List.map_append, List.map_append] at ih ⊢
      rw [map_ofSign_sign] at ih
      obtain ⟨x, z, rfl, hx, hz⟩ := ih.split
      obtain ⟨x, y, rfl, hx, hy⟩ := hx.split
      exact (hx.append (hy.node hrule)).append hz

end Yields

theorem yields_iff {symbols : List Symbol} {kinds : List TokenKind} :
    Yields productions symbols kinds ↔
      (generated productions).Derives (symbols.map sign) (kinds.map .terminal) := by
  refine ⟨Yields.derives, fun h => ?_⟩
  rw [← map_ofSign_sign symbols]
  exact Yields.ofDerives h

/-- The words of the language are the kinds that a program derives. -/
theorem mem_generated {kinds : List TokenKind} :
    kinds ∈ (generated productions).language ↔
      Yields productions [.nonTerminal .program] kinds := by
  rw [ContextFreeGrammar.mem_language_iff]
  exact (@yields_iff productions [.nonTerminal .program] kinds).symm

end Grammar

end BoardScript
