/-
The parser accepts the language of the grammar. The productions, read as a
context-free grammar, generate the sequences of token kinds that have a
derivation (`mem_language`). A sequence of tokens is parsed without errors
exactly when its kinds up to the end of input are generated, and then the
program is what the rules build along a derivation in which every `else`
belongs to the nearest `if` (`parseTokens_iff`).
-/
import BoardScript.Proofs.Grammar.Generated
import BoardScript.Proofs.Program.Accept
import BoardScript.Proofs.Program.Follow
import BoardScript.Proofs.Program.Phrasing
import Mathlib

namespace BoardScript

/-- The productions as a context-free grammar for programs. -/
@[reducible] def grammar : ContextFreeGrammar TokenKind where
  NT := Grammar.NonTerminal
  initial := .program
  rules := (productions.map fun p => ⟨p.head, p.body.map sign⟩).toFinset

-- ======================================================== from derivations

theorem mem_grammar_rules {index : Nat} {rule : Rule} (h : rules[index]? = some rule) :
    ⟨rule.production.head, rule.production.body.map sign⟩ ∈ grammar.rules :=
  List.mem_toFinset.2 (List.mem_map.2 ⟨_, Lalr.mem_productions (tabulated_production h), rfl⟩)

mutual

theorem Phrase.derives {symbol : Grammar.Symbol} : (d : Phrase symbol) →
    grammar.Derives [sign symbol] (d.tokens.map fun token => .terminal token.kind)
  | .token _ => .refl _
  | .node _ h parts => by
      refine .trans (.single ⟨_, mem_grammar_rules h, .input_output⟩) parts.derives

theorem Phrases.derives {symbols : List Grammar.Symbol} : (ds : Phrases symbols) →
    grammar.Derives (symbols.map sign) (ds.tokens.map fun token => .terminal token.kind)
  | .nil => .refl _
  | @Phrases.cons symbol symbols first others => by
      rw [Phrases.tokens, List.map_append, List.map_cons, ← List.singleton_append]
      exact (first.derives.append_right _).trans (others.derives.append_left _)

end

-- ========================================================== to derivations

/-- Tokens that a sequence of symbols derives. -/
def Derivable (symbols : List Grammar.Symbol) (tokens : List Token) : Prop :=
  ∃ ds : Phrases symbols, ds.tokens = tokens

theorem Derivable.append {a b : List Grammar.Symbol} {x y : List Token} (ha : Derivable a x)
    (hb : Derivable b y) : Derivable (a ++ b) (x ++ y) := by
  obtain ⟨ds, rfl⟩ := ha
  induction a with
  | nil => cases ds with | nil => exact hb
  | cons symbol a ih =>
      cases ds with
      | cons first others =>
          obtain ⟨ds, hds⟩ := ih others
          exact ⟨.cons first ds, by rw [Phrases.tokens, hds, Phrases.tokens, List.append_assoc]⟩

theorem Derivable.split {a b : List Grammar.Symbol} {tokens : List Token}
    (h : Derivable (a ++ b) tokens) :
    ∃ x y, tokens = x ++ y ∧ Derivable a x ∧ Derivable b y := by
  obtain ⟨ds, rfl⟩ := h
  induction a with
  | nil => exact ⟨[], ds.tokens, rfl, ⟨.nil, rfl⟩, ds, rfl⟩
  | cons symbol a ih =>
      cases ds with
      | cons first others =>
          obtain ⟨x, y, htokens, ⟨front, hfront⟩, hback⟩ := ih others
          refine ⟨first.tokens ++ x, y, ?_, ⟨.cons first front, ?_⟩, hback⟩
          · rw [Phrases.tokens, htokens, List.append_assoc]
          · rw [Phrases.tokens, hfront]

/-- What a single symbol derives is a phrase. -/
theorem Derivable.exists_phrase {symbol : Grammar.Symbol} {tokens : List Token}
    (h : Derivable [symbol] tokens) : ∃ d : Phrase symbol, d.tokens = tokens := by
  obtain ⟨ds, rfl⟩ := h
  match ds with
  | .cons d .nil =>
      rw [Phrases.tokens, Phrases.tokens, List.append_nil]
      exact ⟨d, rfl⟩

/-- Tokens are derived from their own kinds. -/
theorem Derivable.ofTokens (tokens : List Token) :
    Derivable (tokens.map fun token => .terminal token.kind) tokens := by
  induction tokens with
  | nil => exact ⟨.nil, rfl⟩
  | cons token tokens ih =>
      obtain ⟨ds, hds⟩ := ih
      exact ⟨.cons (.token token) ds, by rw [Phrases.tokens, hds]; rfl⟩

/-- A rule derives what its body derives. -/
theorem Derivable.node {index : Nat} {rule : Rule} (hrule : rules[index]? = some rule)
    {tokens : List Token} (h : Derivable rule.production.body tokens) :
    Derivable [.nonTerminal rule.production.head] tokens := by
  obtain ⟨parts, rfl⟩ := h
  refine ⟨.cons (.node index hrule parts) .nil, ?_⟩
  rw [Phrases.tokens, Phrases.tokens, List.append_nil, Phrase.tokens]

/-- A sequence that can be rewritten to the kinds of tokens derives those
tokens: undoing a step makes a node. -/
theorem Derivable.ofDerives {u : List Sign} {tokens : List Token}
    (h : grammar.Derives u (tokens.map fun token => .terminal token.kind)) :
    Derivable (u.map ofSign) tokens := by
  induction h using Relation.ReflTransGen.head_induction_on with
  | refl =>
      rw [List.map_map]
      exact ofTokens tokens
  | head hstep _ ih =>
      obtain ⟨rule, hrule, hrewrites⟩ := hstep
      obtain ⟨p, q, rfl, rfl⟩ := hrewrites.exists_parts
      obtain ⟨production, hmem, rfl⟩ := List.mem_map.1 (List.mem_toFinset.1 hrule)
      obtain ⟨index, hindex⟩ := List.mem_iff_getElem?.1 hmem
      obtain ⟨r, hr, rfl⟩ := exists_rule ((Lalr.getElem?_productions index).trans hindex)
      rw [List.map_append, List.map_append] at ih ⊢
      rw [map_ofSign_sign] at ih
      obtain ⟨front, back, rfl, hfront, hback⟩ := ih.split
      obtain ⟨before, inner, rfl, hbefore, hinner⟩ := hfront.split
      exact (hbefore.append (hinner.node hr)).append hback

/-- The grammar generates the kinds of the tokens that have a derivation. -/
theorem mem_language {tokens : List Token} :
    tokens.map (·.kind) ∈ grammar.language ↔
      ∃ d : Phrase (.nonTerminal .program), d.tokens = tokens := by
  have hkinds : (tokens.map (·.kind)).map Symbol.terminal
      = tokens.map fun token => (.terminal token.kind : Sign) := by
    rw [List.map_map]
    rfl
  rw [ContextFreeGrammar.mem_language_iff, hkinds]
  constructor
  · exact fun h => (Derivable.ofDerives h).exists_phrase
  · rintro ⟨d, rfl⟩
    exact d.derives

-- ============================================================ end of input

/-- No rule has a token of a kind. -/
def Unruled (kind : TokenKind) : Prop :=
  ∀ (index : Nat) (rule : Rule), rules[index]? = some rule → .terminal kind ∉ rule.production.body

theorem unruled_end : Unruled .endOfInput := by
  intro index rule h hmem
  obtain ⟨front, back, hbody⟩ := List.append_of_mem hmem
  have hrem : Lalr.tabulated.remaining ⟨index, front.length⟩ = .terminal .endOfInput :: back := by
    rw [Lalr.remaining_eq (tabulated_production h), hbody, List.drop_left]
  exact (Lalr.augmented.ne_of_remaining hrem).2 rfl

mutual

/-- No phrase has a token of a kind that is in no rule. -/
theorem Phrase.kind_ne {kind : TokenKind} (h : Unruled kind) {symbol : Grammar.Symbol}
    (hs : symbol ≠ .terminal kind) : (d : Phrase symbol) → ∀ token ∈ d.tokens, token.kind ≠ kind
  | .token token, other, hmem, hkind => by
      obtain rfl := List.mem_singleton.1 hmem
      exact hs (congrArg _ hkind)
  | .node _ hrule parts, token, hmem, hkind => parts.kind_ne h (h _ _ hrule) token hmem hkind

theorem Phrases.kind_ne {kind : TokenKind} (h : Unruled kind) {symbols : List Grammar.Symbol}
    (hs : .terminal kind ∉ symbols) : (ds : Phrases symbols) → ∀ token ∈ ds.tokens, token.kind ≠ kind
  | .nil, token, hmem, _ => absurd hmem List.not_mem_nil
  | .cons first others, token, hmem, hkind => by
      rcases List.mem_append.1 hmem with hmem | hmem
      · exact first.kind_ne h (fun e => hs (e ▸ List.mem_cons_self)) token hmem hkind
      · exact others.kind_ne h (fun h => hs (List.mem_cons_of_mem _ h)) token hmem hkind

end

/-- No phrase reaches behind the end of input. -/
theorem Phrase.kind_ne_end {symbol : Grammar.Symbol} (hs : symbol ≠ .terminal .endOfInput)
    (d : Phrase symbol) : ∀ token ∈ d.tokens, token.kind ≠ .endOfInput :=
  d.kind_ne unruled_end hs

/-- There is one way to cut tokens at the first end of input. -/
theorem cut_unique {front front' more more' : List Token} {eof eof' : Token}
    (h : front ++ eof :: more = front' ++ eof' :: more')
    (hfront : ∀ token ∈ front, token.kind ≠ .endOfInput)
    (hfront' : ∀ token ∈ front', token.kind ≠ .endOfInput)
    (heof : eof.kind = .endOfInput) (heof' : eof'.kind = .endOfInput) :
    front = front' ∧ eof = eof' ∧ more = more' := by
  induction front generalizing front' with
  | nil =>
      cases front' with
      | nil => simpa using h
      | cons token front' =>
          obtain ⟨rfl, -⟩ := List.cons.inj h
          exact absurd heof (hfront' _ List.mem_cons_self)
  | cons token front ih =>
      cases front' with
      | nil =>
          obtain ⟨rfl, -⟩ := List.cons.inj h
          exact absurd heof' (hfront _ List.mem_cons_self)
      | cons token' front' =>
          obtain ⟨rfl, htail⟩ := List.cons.inj h
          obtain ⟨rfl, hrest⟩ := ih htail (fun t ht => hfront t (List.mem_cons_of_mem _ ht))
            (fun t ht => hfront' t (List.mem_cons_of_mem _ ht))
          exact ⟨rfl, hrest⟩

-- =============================================================== acceptance

/-- What is parsed without an error has a derivation. -/
theorem exists_phrase_of_parseTokens {source : Source} {before more : List Token} {eof : Token}
    (hbefore : ∀ token ∈ before, token.kind ≠ .endOfInput) (heof : eof.kind = .endOfInput)
    {root : Node} (h : parseTokens {} source (before ++ eof :: more) = ⟨some root, []⟩) :
    ∃ d : Phrase (.nonTerminal .program), d.tokens = before := by
  rw [parseTokens] at h
  cases hrun : (Parser.start {} source (before ++ eof :: more)).run tables
      (parseFuel (before ++ eof :: more).length) with
  | none => rw [hrun] at h; cases h
  | some parsed =>
      rw [hrun, Option.getD_some] at h
      subst h
      have hstart := Parser.Accounts.start driver {} source
        ⟨eof, List.mem_append_right before (List.mem_cons_self (l := more)), heof⟩
      obtain ⟨d, after, more', hafter, hread | ⟨hmay, -⟩⟩ := Parser.run_accepts hstart rfl hrun
      swap
      · cases hmay
      obtain ⟨hd, -, -⟩ :=
        cut_unique hread hbefore (d.kind_ne_end (fun e => by cases e)) heof hafter
      exact ⟨d, hd.symm⟩

/-- The parser accepts exactly its grammar. Tokens are parsed to a program
without an error just when their kinds up to the end of input are generated
from the productions; the program is then what the rules build along any
derivation of the tokens in which every `else` belongs to the nearest `if`,
and there is one. -/
theorem parseTokens_iff (source : Source) (before more : List Token)
    (hbefore : ∀ token ∈ before, token.kind ≠ .endOfInput) (eof : Token)
    (heof : eof.kind = .endOfInput) :
    ((∃ root, parseTokens {} source (before ++ eof :: more) = ⟨some root, []⟩) ↔
      before.map (·.kind) ∈ grammar.language) ∧
    ∀ root, parseTokens {} source (before ++ eof :: more) = ⟨some root, []⟩ →
      (∃ d : Phrase (.nonTerminal .program), d.tokens = before ∧ d.Nearest) ∧
      ∀ d : Phrase (.nonTerminal .program), d.tokens = before → d.Nearest →
        d.meaning eof.span.start = some (.node root) := by
  refine ⟨⟨?_, ?_⟩, fun root h => ⟨?_, ?_⟩⟩
  · rintro ⟨root, h⟩
    exact mem_language.2 (exists_phrase_of_parseTokens hbefore heof h)
  · intro h
    obtain ⟨d, rfl⟩ := mem_language.1 h
    obtain ⟨d', htokens, hnear⟩ := d.exists_nearest
    obtain ⟨root, -, hparse⟩ := parseTokens_phrase {} source d' hnear more heof
    exact ⟨root, htokens ▸ hparse⟩
  · obtain ⟨d, rfl⟩ := exists_phrase_of_parseTokens hbefore heof h
    exact d.exists_nearest
  · rintro d rfl hnear
    obtain ⟨root', hmeaning, hparse⟩ := parseTokens_phrase {} source d hnear more heof
    rw [h] at hparse
    obtain rfl := Option.some.inj (Parsed.mk.inj hparse).1
    exact hmeaning

/-- The tokens of a loop with a branch and calls in it are parsed to what
they mean along their derivation. -/
theorem parseTokens_logOnce :
    parseTokens {} (.ofText logOnceText)
      (Phrase.logOnce.tokens ++ [⟨.endOfInput, "", ⟨57, 0⟩, ⟨1, 58⟩⟩]) = ⟨some .logOnce, []⟩ := by
  obtain ⟨⟨-, haccepts⟩, hmeans⟩ := parseTokens_iff (.ofText logOnceText) Phrase.logOnce.tokens []
    (Phrase.logOnce.kind_ne_end fun e => by cases e) ⟨.endOfInput, "", ⟨57, 0⟩, ⟨1, 58⟩⟩ rfl
  obtain ⟨root, hparse⟩ := haccepts (mem_language.2 ⟨.logOnce, rfl⟩)
  have hroot := (hmeans root hparse).2 .logOnce rfl nearest_logOnce
  obtain rfl := Meaning.node.inj (Option.some.inj (hroot.symm.trans meaning_logOnce))
  exact hparse

theorem parse_logOnce (options : ParseOptions) :
    parse options (.ofText logOnceText) = ⟨some .logOnce, []⟩ := by
  obtain ⟨root, hroot, hparse⟩ := parseTokens_phrase options (.ofText logOnceText) .logOnce
    nearest_logOnce [] (show (⟨.endOfInput, "", ⟨57, 0⟩, ⟨1, 58⟩⟩ : Token).kind = .endOfInput from rfl)
  obtain rfl := Meaning.node.inj (Option.some.inj (hroot.symm.trans meaning_logOnce))
  rw [parse, show (Source.ofText logOnceText).text = logOnceText from rfl, scan_logOnce]
  exact hparse

end BoardScript
