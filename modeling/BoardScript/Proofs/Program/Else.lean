/-
Where an `else` belongs. Every sequence of tokens that has a derivation has
one in which each `else` belongs to the nearest `if` that it can
(`Phrase.exists_nearest`). An `else` that was given to an outer `if` is
moved inwards: it goes to the last open `if` in the branch in front of it,
and the outer `if` is left without one (`Phrase.attach`). The tokens stay
as they are.
-/
import BoardScript.Proofs.Program.Derivation

namespace BoardScript

open Grammar

/-- A phrase of a terminal is a token of that kind. -/
theorem Phrase.exists_token {kind : TokenKind} : (d : Phrase (.terminal kind)) →
    ∃ token : Token, token.kind = kind ∧ d.tokens = [token]
  | .token t => ⟨t, rfl, rfl⟩

/-- A token of a kind is a phrase of the terminal. -/
def Phrase.ofToken {kind : TokenKind} (token : Token) (h : token.kind = kind) :
    Phrase (.terminal kind) := h ▸ .token token

@[simp] theorem Phrase.tokens_ofToken {kind : TokenKind} (token : Token)
    (h : token.kind = kind) : (Phrase.ofToken token h).tokens = [token] := by
  subst h
  rfl

theorem Phrase.nearest_ofToken {kind : TokenKind} (token : Token) (h : token.kind = kind) :
    (Phrase.ofToken token h).Nearest := by
  subst h
  trivial

/-- Only a phrase of a nonterminal can end open. -/
theorem Phrases.getLast?_of_endsOpen {symbols : List Symbol} : (ds : Phrases symbols) →
    ds.endsOpen = true → ∃ n, symbols.getLast? = some (.nonTerminal n)
  | .nil, h => by cases h
  | .cons (.token _) .nil, h => by cases h
  | .cons (.node _ _ _) .nil, _ => ⟨_, rfl⟩
  | .cons _ (.cons second others), h => by
      obtain ⟨n, hn⟩ := Phrases.getLast?_of_endsOpen (.cons second others) h
      exact ⟨n, by rw [List.getLast?_cons_cons]; exact hn⟩

/-- An `if` without an `else`. -/
def Phrase.ifThen (parts : Phrases [.terminal .ifWord, .terminal .leftParen,
    .nonTerminal .expression, .terminal .rightParen, .nonTerminal .statement]) :
    Phrase (.nonTerminal .statement) :=
  @Phrase.node ifRule rules[ifRule] rfl parts

/-- An `if` with an `else`. -/
def Phrase.ifElse (parts : Phrases [.terminal .ifWord, .terminal .leftParen,
    .nonTerminal .expression, .terminal .rightParen, .nonTerminal .statement,
    .terminal .elseWord, .nonTerminal .statement]) : Phrase (.nonTerminal .statement) :=
  @Phrase.node ifElseRule rules[ifElseRule] rfl parts

private theorem last_checked :
    (productions.all fun p => p.head != .statement ||
      match p.body.getLast? with
      | some (.nonTerminal n) => n == .statement
      | _ => true) = true := by
  decide +kernel

/-- A statement that ends open, and not as an `if`, ends with a statement
that does. -/
theorem last_statement {index : Nat} {rule : Rule} (h : rules[index]? = some rule)
    (hhead : rule.production.head = .statement) (parts : Phrases rule.production.body)
    (hopen : parts.endsOpen = true) :
    rule.production.body.getLast? = some (.nonTerminal .statement) := by
  obtain ⟨n, hn⟩ := parts.getLast?_of_endsOpen hopen
  have hp := List.all_eq_true.1 last_checked _ (Lalr.mem_productions (tabulated_production h))
  rw [hhead, hn] at hp
  have hns : n = .statement := by simpa using hp
  rw [hn, hns]

mutual

/-- Giving an `else` to the last open `if` of a statement. -/
theorem Phrase.attach {symbol : Symbol} (word : Token) (hword : word.kind = .elseWord)
    (no : Phrase (.nonTerminal .statement)) (hno : no.Nearest) : (d : Phrase symbol) →
    symbol = .nonTerminal .statement → d.endsOpen = true → d.Nearest →
    ∃ d' : Phrase symbol, d'.tokens = d.tokens ++ word :: no.tokens ∧ d'.Nearest
  | .token _ => fun _ hopen _ => by cases hopen
  | @Phrase.node index rule hrule parts => fun hsymbol hopen hnear => by
      by_cases hparts : parts.endsOpen = true
      · -- the open `if` is in the last part
        obtain ⟨parts', htokens, hnear', hopens⟩ := Phrases.attach word hword no hno parts
          (last_statement hrule (Symbol.nonTerminal.inj hsymbol) parts hparts) hparts hnear.2
        refine ⟨.node index hrule parts', htokens, fun e => ?_, hnear'⟩
        subst e
        obtain rfl := Option.some.inj hrule
        rw [hopens 4 (by decide)]
        exact hnear.1 rfl
      · -- it is this one, and its branch does not end open
        obtain rfl : index = ifRule := by simpa [Phrase.endsOpen, hparts] using hopen
        obtain rfl := Option.some.inj hrule
        match parts, hparts, hnear with
        | .cons a (.cons b (.cons c (.cons d (.cons yes .nil)))), hparts, hnear =>
            refine ⟨.ifElse (.cons a (.cons b (.cons c (.cons d (.cons yes
              (.cons (.ofToken word hword) (.cons no .nil))))))), ?_, fun _ => ?_, ?_⟩
            · simp [Phrase.ifElse, Phrase.tokens, Phrases.tokens]
            · exact Bool.not_eq_true _ ▸ hparts
            · obtain ⟨-, ha, hb, hc, hd, hyes, -⟩ := hnear
              exact ⟨ha, hb, hc, hd, hyes, Phrase.nearest_ofToken word hword, hno, trivial⟩

theorem Phrases.attach {symbols : List Symbol} (word : Token) (hword : word.kind = .elseWord)
    (no : Phrase (.nonTerminal .statement)) (hno : no.Nearest) : (ds : Phrases symbols) →
    symbols.getLast? = some (.nonTerminal .statement) → ds.endsOpen = true → ds.Nearest →
    ∃ ds' : Phrases symbols, ds'.tokens = ds.tokens ++ word :: no.tokens ∧ ds'.Nearest ∧
      ∀ place, place + 1 < symbols.length → ds'.openAt place = ds.openAt place
  | .nil => fun h => by cases h
  | .cons first .nil => fun hlast hopen hnear => by
      obtain ⟨first', htokens, hnear'⟩ :=
        Phrase.attach word hword no hno first (Option.some.inj hlast) hopen hnear.1
      refine ⟨.cons first' .nil, ?_, ⟨hnear', trivial⟩, fun place h => ?_⟩
      · simp [Phrases.tokens, htokens]
      · exact absurd h (by simp)
  | .cons first (.cons second others) => fun hlast hopen hnear => by
      obtain ⟨rest, htokens, hnear', hopens⟩ :=
        Phrases.attach word hword no hno (.cons second others) (by simpa using hlast) hopen hnear.2
      refine ⟨.cons first rest, ?_, ⟨hnear.1, hnear'⟩, fun place h => ?_⟩
      · simp [Phrases.tokens, htokens]
      · cases place with
        | zero => rfl
        | succ place => exact hopens place (by simpa using h)

end

mutual

/-- A derivation of the same tokens in which every `else` belongs to the
nearest `if`. -/
theorem Phrase.exists_nearest {symbol : Symbol} : (d : Phrase symbol) →
    ∃ d' : Phrase symbol, d'.tokens = d.tokens ∧ d'.Nearest
  | .token t => ⟨.token t, rfl, trivial⟩
  | @Phrase.node index rule hrule parts => by
      obtain ⟨parts', htokens, hnear⟩ := parts.exists_nearest
      by_cases hopen : index = ifElseRule ∧ parts'.openAt 4 = true
      · obtain ⟨rfl, hopen⟩ := hopen
        obtain rfl := Option.some.inj hrule
        match parts', htokens, hnear, hopen with
        | .cons a (.cons b (.cons c (.cons d (.cons yes (.cons word (.cons no .nil)))))), htokens,
            hnear, hopen =>
            obtain ⟨ha, hb, hc, hd, hyes, -, hno, -⟩ := hnear
            obtain ⟨token, hkind, hword⟩ := word.exists_token
            obtain ⟨yes', hyes', hnear'⟩ := Phrase.attach token hkind no hno yes rfl hopen hyes
            refine ⟨.ifThen (.cons a (.cons b (.cons c (.cons d (.cons yes' .nil))))), ?_,
              fun e => absurd e (by decide), ha, hb, hc, hd, hnear', trivial⟩
            rw [Phrase.tokens, ← htokens]
            simp [Phrase.ifThen, Phrase.tokens, Phrases.tokens, hyes', hword]
      · refine ⟨.node index hrule parts', htokens, fun e => ?_, hnear⟩
        simpa [e] using hopen

theorem Phrases.exists_nearest {symbols : List Symbol} : (ds : Phrases symbols) →
    ∃ ds' : Phrases symbols, ds'.tokens = ds.tokens ∧ ds'.Nearest
  | .nil => ⟨.nil, rfl, trivial⟩
  | .cons first others => by
      obtain ⟨first', hfirst, hnear⟩ := first.exists_nearest
      obtain ⟨others', hothers, hnear'⟩ := others.exists_nearest
      exact ⟨.cons first' others', by simp [Phrases.tokens, hfirst, hothers], hnear, hnear'⟩

end

end BoardScript
