/-
Derivations of the grammar, as trees. A phrase of a terminal is a token of
that kind; a phrase of a nonterminal is a rule for it with a phrase for
each symbol of its body. That a derivation follows the rules is part of
its type.

A phrase has tokens and a meaning, what the rules build along it, each
handed the span of its phrase. It may end open: its last statement is an `if` without an `else`, so that an
`else` behind it would belong to that `if`. In a phrase where every `else`
belongs to the nearest `if` that it can, no `if` with an `else` has a
first branch that ends open (`Phrase.Nearest`).
-/
import BoardScript.Proofs.Program.Conflict
import Mathlib.Algebra.Ring.Int.Defs

namespace BoardScript

open Grammar

mutual

/-- A derivation from one symbol. -/
inductive Phrase : Symbol → Type
  | token (token : Token) : Phrase (.terminal token.kind)
  | node (index : Nat) {rule : Rule} (h : rules[index]? = some rule)
      (parts : Phrases rule.production.body) : Phrase (.nonTerminal rule.production.head)

/-- A derivation from a sequence of symbols. -/
inductive Phrases : List Symbol → Type
  | nil : Phrases []
  | cons {symbol : Symbol} {symbols : List Symbol} (first : Phrase symbol)
      (others : Phrases symbols) : Phrases (symbol :: symbols)

end

mutual

/-- The tokens of a phrase, in order. -/
def Phrase.tokens {symbol : Symbol} : Phrase symbol → List Token
  | .token token => [token]
  | .node _ _ parts => parts.tokens

def Phrases.tokens {symbols : List Symbol} : Phrases symbols → List Token
  | .nil => []
  | .cons first others => first.tokens ++ others.tokens

end

mutual

/-- The text that a phrase covers, if it has any tokens. -/
def Phrase.span {symbol : Symbol} : Phrase symbol → Option Span
  | .token token => some token.span
  | .node _ _ parts => Span.coverAll parts.spans

def Phrases.spans {symbols : List Symbol} : Phrases symbols → List Span
  | .nil => []
  | .cons first others => first.span.toList ++ others.spans

end

/-- Where the first of some tokens starts; where `next` is, if there are
none. -/
def startOf (next : Nat) : List Token → Nat
  | [] => next
  | token :: _ => token.span.start

mutual

/-- What the rules build along a phrase in front of what starts at `next`.
A phrase without text has the empty span there. -/
def Phrase.meaning {symbol : Symbol} (next : Nat) : Phrase symbol → Option Meaning
  | .token token => some (.token token)
  | @Phrase.node _ rule _ parts =>
      (parts.meanings next).bind
        (rule.build ((Span.coverAll parts.spans).getD (.before next)))

def Phrases.meanings {symbols : List Symbol} (next : Nat) :
    Phrases symbols → Option (List Meaning)
  | .nil => some []
  | .cons first others =>
      (first.meaning (startOf next others.tokens)).bind fun m =>
        (others.meanings next).map (m :: ·)

end

/-- The rule of an `if` without an `else`. -/
def ifRule : Nat := 4

/-- The rule of an `if` with an `else`. -/
def ifElseRule : Nat := 5

mutual

/-- Whether an `else` behind the phrase would belong to an `if` in it. -/
def Phrase.endsOpen {symbol : Symbol} : Phrase symbol → Bool
  | .token _ => false
  | .node index _ parts => index == ifRule || parts.endsOpen

def Phrases.endsOpen {symbols : List Symbol} : Phrases symbols → Bool
  | .nil => false
  | .cons first .nil => first.endsOpen
  | .cons _ (.cons second others) => (Phrases.cons second others).endsOpen

end

/-- Whether the phrase at a place ends open. -/
def Phrases.openAt : {symbols : List Symbol} → Nat → Phrases symbols → Bool
  | _, _, .nil => false
  | _, 0, .cons first _ => first.endsOpen
  | _, place + 1, .cons _ others => others.openAt place

mutual

/-- Every `else` belongs to the nearest `if` that it can. -/
def Phrase.Nearest {symbol : Symbol} : Phrase symbol → Prop
  | .token _ => True
  | .node index _ parts => (index = ifElseRule → parts.openAt 4 = false) ∧ parts.Nearest

def Phrases.Nearest {symbols : List Symbol} : Phrases symbols → Prop
  | .nil => True
  | .cons first others => first.Nearest ∧ others.Nearest

end

/-- A rule is one of a statement, an operator, a value or a list. -/
theorem mem_rules {index : Nat} {rule : Rule} (h : rules[index]? = some rule) :
    rule ∈ statementRules ∨ rule ∈ operatorRules ∨ rule ∈ valueRules ∨ rule ∈ listRules := by
  have hmem : rule ∈ statementRules ++ operatorRules ++ valueRules ++ listRules :=
    List.mem_toArray.1 (Array.mem_of_getElem? h)
  simpa only [List.mem_append, or_assoc] using hmem

theorem tabulated_production {index : Nat} {rule : Rule} (h : rules[index]? = some rule) :
    Lalr.tabulated.productions[index]? = some rule.production := by
  rw [Lalr.getElem?_productions, productions, List.getElem?_map, Array.getElem?_toList, h]
  rfl

-- ============================================================ first tokens

/-- Tokens that start as is known: with one of the kinds, or there are
none. -/
def Grammar.Start.Admits (start : Start) : List Token → Prop
  | [] => start.nullable = true
  | token :: _ => start.first.contains token.kind = true

theorem Grammar.Start.Admits.mono {a b : Start} (h : Ranked.le a b) {tokens : List Token}
    (ha : a.Admits tokens) : b.Admits tokens := by
  cases tokens with
  | nil => exact h.2 ha
  | cons token _ => exact h.1 _ ha

/-- How a single symbol can start. -/
def Grammar.Starts.ofSymbol (starts : Starts) : Symbol → Start
  | .terminal kind => ⟨.single kind, false⟩
  | .nonTerminal n => starts.of n

theorem Grammar.Starts.admits_cons {starts : Starts} {symbol : Symbol} {symbols : List Symbol}
    {first others : List Token} (hf : (starts.ofSymbol symbol).Admits first)
    (ho : (starts.ofSequence symbols).Admits others) :
    (starts.ofSequence (symbol :: symbols)).Admits (first ++ others) := by
  cases symbol with
  | terminal kind =>
      cases first with
      | nil => cases hf
      | cons token _ => exact hf
  | nonTerminal n =>
      cases first with
      | nil =>
          -- an empty phrase: the next one decides
          have hnull : (starts.of n).nullable = true := hf
          simp only [Starts.ofSequence, hnull, if_true, List.nil_append]
          cases others with
          | nil => exact ho
          | cons token _ => exact KindSet.within_union_right _ _ _ ho
      | cons token _ =>
          have hin : (starts.of n).first.contains token.kind = true := hf
          simp only [Starts.ofSequence]
          split
          · exact KindSet.within_union_left _ _ _ hin
          · exact hin

mutual

/-- A phrase starts as its symbol can. -/
theorem Phrase.admits {symbol : Symbol} : (d : Phrase symbol) →
    (Lalr.tabulated.starts.ofSymbol symbol).Admits d.tokens
  | .token token => by
      show (KindSet.single token.kind).contains token.kind = true
      simp
  | .node _ h parts =>
      parts.admits.mono (Lalr.starts_closed (Lalr.mem_productions (tabulated_production h)))

theorem Phrases.admits {symbols : List Symbol} : (ds : Phrases symbols) →
    (Lalr.tabulated.starts.ofSequence symbols).Admits ds.tokens
  | .nil => rfl
  | .cons first others => Starts.admits_cons first.admits others.admits

end

-- ================================================================== length

/-- What a symbol adds to the steps of a parse beyond 32 for each token.
The lists that can be empty are the only ones to add anything, and each
statement pays for its place in the list. -/
def Grammar.Symbol.weight : Symbol → Int
  | .terminal _ => -31
  | .nonTerminal .accept => 3
  | .nonTerminal .program => 2
  | .nonTerminal .statements | .nonTerminal .arguments | .nonTerminal .parameters => 1
  | .nonTerminal .statement | .nonTerminal .assignment => -1
  | .nonTerminal .argumentList | .nonTerminal .parameterList => -19
  | .nonTerminal .expression => -20
  | .nonTerminal .disjunction => -21
  | .nonTerminal .conjunction => -22
  | .nonTerminal .comparison => -23
  | .nonTerminal .sum => -24
  | .nonTerminal .product => -25
  | .nonTerminal .unary => -26
  | .nonTerminal .power => -27
  | .nonTerminal .access => -28
  | .nonTerminal .value | .nonTerminal .target | .nonTerminal .propertyName => -29
  | .nonTerminal .object | .nonTerminal .properties => -30

mutual

/-- How many steps the parser takes along a phrase: one for each token and
one for each rule. -/
def Phrase.steps {symbol : Symbol} : Phrase symbol → Nat
  | .token _ => 1
  | .node _ _ parts => parts.steps + 1

def Phrases.steps {symbols : List Symbol} : Phrases symbols → Nat
  | .nil => 0
  | .cons first others => first.steps + others.steps

end

private theorem weight_checked :
    (productions.all fun p =>
      decide ((p.body.map Symbol.weight).sum + 1 ≤ Symbol.weight (.nonTerminal p.head))) = true := by
  decide +kernel

mutual

theorem Phrase.steps_le {symbol : Symbol} : (d : Phrase symbol) →
    (d.steps : Int) ≤ 32 * d.tokens.length + symbol.weight
  | .token token => by simp [Phrase.steps, Phrase.tokens, Symbol.weight]
  | @Phrase.node index rule h parts => by
      have hp := of_decide_eq_true (List.all_eq_true.1 weight_checked _
        (Lalr.mem_productions (tabulated_production h)))
      have := parts.steps_le
      simp only [Phrase.steps, Phrase.tokens]
      push_cast
      omega

theorem Phrases.steps_le {symbols : List Symbol} : (ds : Phrases symbols) →
    (ds.steps : Int) ≤ 32 * ds.tokens.length + (symbols.map Symbol.weight).sum
  | .nil => by simp [Phrases.steps, Phrases.tokens]
  | .cons first others => by
      have h1 := first.steps_le
      have h2 := others.steps_le
      simp only [Phrases.steps, Phrases.tokens, List.length_append, List.map_cons, List.sum_cons]
      push_cast
      omega

end

-- ============================================================ the open if

private theorem behind_checked :
    (productions.zipIdx.all fun entry => (Lalr.dots entry).all fun i =>
      match i.rest with
      | .nonTerminal _ :: rest => rest.isEmpty ||
          (!(Lalr.startBound.ofSequence rest).nullable &&
            (!(Lalr.startBound.ofSequence rest).first.contains .elseWord ||
              i.item == ⟨ifElseRule, 4⟩))
      | _ => true) = true := by
  decide +kernel

/-- A phrase that is not the last of its rule has a token behind it in the
rule, and that is an `else` only behind the first branch of an `if`. -/
theorem behind {index : Nat} {rule : Rule} (h : rules[index]? = some rule) {dot : Nat}
    {n : NonTerminal} {symbols : List Symbol}
    (hdrop : rule.production.body.drop dot = .nonTerminal n :: symbols) (hne : symbols ≠ [])
    (others : Phrases symbols) :
    ∃ token rest, others.tokens = token :: rest ∧
      (token.kind = .elseWord → index = ifElseRule ∧ dot = 4) := by
  have hp := tabulated_production h
  have hlt : dot < rule.production.body.length := by
    by_contra hge
    rw [List.drop_eq_nil_of_le (Nat.le_of_not_lt hge)] at hdrop
    cases hdrop
  have hentry : (rule.production, index) ∈ productions.zipIdx := by
    rw [List.mem_zipIdx_iff_getElem?, ← Lalr.getElem?_productions]
    exact hp
  have hchecked := List.all_eq_true.1 (List.all_eq_true.1 behind_checked _ hentry) _
    (Lalr.dotted_mem_dots hp (Nat.le_of_lt hlt))
  rw [Lalr.dotted_rest, Lalr.remaining_eq hp, hdrop] at hchecked
  have hempty : symbols.isEmpty = false := by simpa using hne
  simp only [hempty, Bool.false_or, Bool.and_eq_true, Bool.not_eq_true', Bool.or_eq_true,
    beq_iff_eq] at hchecked
  obtain ⟨hnull, helse⟩ := hchecked
  have hadmits := others.admits.mono (Lalr.ofSequence_le symbols)
  cases htokens : others.tokens with
  | nil =>
      rw [htokens] at hadmits
      exact absurd hadmits (by rw [Start.Admits, hnull]; decide)
  | cons token rest =>
      rw [htokens] at hadmits
      refine ⟨token, rest, rfl, fun hkind => ?_⟩
      have hin : (Lalr.startBound.ofSequence symbols).first.contains token.kind = true :=
        hadmits
      rw [hkind] at hin
      rcases helse with he | he
      · rw [he] at hin
        cases hin
      · exact Item.mk.inj he

end BoardScript
