/-
Parsing two texts with a line end between them. The tokens of the whole are
those of the first text and, further on, those of the second. A derivation
of tokens further on is the same derivation, and means the same further on
(`Phrase.meaning_shift`). What comes behind some statements does not change
what they mean (`Phrase.meaning_next`), so the statements of both texts can
be put one behind the other (`exists_behind`): a program is then parsed to
the statements of the first text and those of the second (`parse_join`).
-/
import BoardScript.Proofs.Program.Moved
import BoardScript.Proofs.Program.Progress
import BoardScript.Proofs.Program.Wrapped
import BoardScript.Proofs.Token.Bytes

namespace BoardScript

open Grammar

-- =================================================================== spans

namespace Span

variable (bytes : Nat)

theorem shift_cover (a b : Span) :
    (a.cover b).shift bytes = (a.shift bytes).cover (b.shift bytes) := by
  simp only [cover, between, shift, stop, Span.mk.injEq]
  omega

theorem coverAll_shift (spans : List Span) :
    coverAll (spans.map (shift bytes)) = (coverAll spans).map (shift bytes) := by
  cases spans with
  | nil => rfl
  | cons s spans =>
      refine congrArg some ?_
      induction spans generalizing s with
      | nil => rfl
      | cons t spans ih =>
          rw [List.map_cons, List.foldl_cons, List.foldl_cons, ← shift_cover]
          exact ih _

end Span

-- ================================================================ further on

mutual

/-- The same derivation of the same words at other places. -/
def Phrase.moved (move : Span → Span) (place : Position → Position) {symbol : Grammar.Symbol} :
    Phrase symbol → Phrase symbol
  | .token token => .token (token.moved move place)
  | .node index h parts => .node index h (parts.moved move place)

def Phrases.moved (move : Span → Span) (place : Position → Position)
    {symbols : List Grammar.Symbol} : Phrases symbols → Phrases symbols
  | .nil => .nil
  | .cons first others => .cons (first.moved move place) (others.moved move place)

end

section

variable (move : Span → Span) (place : Position → Position)

mutual

@[simp] theorem Phrase.tokens_moved {symbol : Grammar.Symbol} : (d : Phrase symbol) →
    (d.moved move place).tokens = d.tokens.map (Token.moved move place)
  | .token _ => rfl
  | .node _ _ parts => parts.tokens_moved

@[simp] theorem Phrases.tokens_moved {symbols : List Grammar.Symbol} : (ds : Phrases symbols) →
    (ds.moved move place).tokens = ds.tokens.map (Token.moved move place)
  | .nil => rfl
  | .cons first others => by
      rw [Phrases.moved, Phrases.tokens, first.tokens_moved, others.tokens_moved, Phrases.tokens,
        List.map_append]

end

mutual

@[simp] theorem Phrase.endsOpen_moved {symbol : Grammar.Symbol} : (d : Phrase symbol) →
    (d.moved move place).endsOpen = d.endsOpen
  | .token _ => rfl
  | .node index _ parts => congrArg (index == ifRule || ·) parts.endsOpen_moved

@[simp] theorem Phrases.endsOpen_moved {symbols : List Grammar.Symbol} : (ds : Phrases symbols) →
    (ds.moved move place).endsOpen = ds.endsOpen
  | .nil => rfl
  | .cons first .nil => first.endsOpen_moved
  | .cons _ (.cons second others) => (Phrases.cons second others).endsOpen_moved

end

theorem Phrases.openAt_moved : {symbols : List Grammar.Symbol} → (ds : Phrases symbols) →
    (i : Nat) → (ds.moved move place).openAt i = ds.openAt i
  | _, .nil, i => by cases i <;> rfl
  | _, .cons first _, 0 => first.endsOpen_moved move place
  | _, .cons _ others, i + 1 => others.openAt_moved i

mutual

theorem Phrase.nearest_moved {symbol : Grammar.Symbol} : (d : Phrase symbol) → d.Nearest →
    (d.moved move place).Nearest
  | .token _, _ => trivial
  | .node _ _ parts, h =>
      ⟨fun e => (parts.openAt_moved move place 4).trans (h.1 e), parts.nearest_moved h.2⟩

theorem Phrases.nearest_moved {symbols : List Grammar.Symbol} : (ds : Phrases symbols) →
    ds.Nearest → (ds.moved move place).Nearest
  | .nil, _ => trivial
  | .cons first others, h => ⟨first.nearest_moved h.1, others.nearest_moved h.2⟩

end

end

section

variable (bytes : Nat) (place : Position → Position)

mutual

theorem Phrase.span_shift {symbol : Grammar.Symbol} : (d : Phrase symbol) →
    (d.moved (Span.shift bytes) place).span = d.span.map (Span.shift bytes)
  | .token _ => rfl
  | .node _ _ parts => by
      rw [Phrase.moved, Phrase.span, parts.spans_shift, Span.coverAll_shift, Phrase.span]

theorem Phrases.spans_shift {symbols : List Grammar.Symbol} : (ds : Phrases symbols) →
    (ds.moved (Span.shift bytes) place).spans = ds.spans.map (Span.shift bytes)
  | .nil => rfl
  | .cons first others => by
      rw [Phrases.moved, Phrases.spans, first.span_shift, others.spans_shift, Phrases.spans,
        List.map_append]
      cases first.span <;> rfl

end

theorem startOf_shift (next : Nat) (tokens : List Token) :
    startOf (next + bytes) (tokens.map (Token.moved (Span.shift bytes) place))
      = startOf next tokens + bytes := by
  cases tokens <;> rfl

mutual

/-- A phrase further on means the same further on. -/
theorem Phrase.meaning_shift {symbol : Grammar.Symbol} (next : Nat) : (d : Phrase symbol) →
    (d.moved (Span.shift bytes) place).meaning (next + bytes)
      = (d.meaning next).map (Meaning.moved (Span.shift bytes) place)
  | .token _ => rfl
  | .node _ hrule parts => by
      have hlex : ∀ token ∈ parts.tokens, Lexicon.anything token.kind token.lexeme :=
        fun _ _ => trivial
      obtain ⟨ms, hms, hsorted⟩ := parts.sorted next hlex
      have hspan : (Span.coverAll (parts.moved (Span.shift bytes) place).spans).getD
            (.before (next + bytes))
          = ((Span.coverAll parts.spans).getD (.before next)).shift bytes := by
        rw [parts.spans_shift, Span.coverAll_shift]
        cases Span.coverAll parts.spans <;> rfl
      rw [Phrase.moved, Phrase.meaning, parts.meanings_shift next, hspan, Phrase.meaning, hms]
      exact (rules_movable _ place hrule _ ms hsorted).symm

theorem Phrases.meanings_shift {symbols : List Grammar.Symbol} (next : Nat) :
    (ds : Phrases symbols) →
    (ds.moved (Span.shift bytes) place).meanings (next + bytes)
      = (ds.meanings next).map (List.map (Meaning.moved (Span.shift bytes) place))
  | .nil => rfl
  | .cons first others => by
      rw [Phrases.moved, Phrases.meanings, others.tokens_moved, startOf_shift,
        first.meaning_shift, others.meanings_shift, Phrases.meanings]
      cases first.meaning (startOf next others.tokens) with
      | none => rfl
      | some m => cases others.meanings next <;> rfl

end

end

-- ============================================================ what is behind

/-- Symbols below which no phrase is made of statements alone. -/
def Grammar.Symbol.isInner : Grammar.Symbol → Bool
  | .nonTerminal .accept | .nonTerminal .program => false
  | _ => true

private theorem inner_checked :
    (productions.all fun p => !(Symbol.nonTerminal p.head).isInner ||
      (p.body.all Symbol.isInner &&
        (p.body.isEmpty || !(Lalr.startBound.ofSequence p.body).nullable))) = true := by
  decide +kernel

private theorem empty_rules :
    (rules.toList.filter fun rule => rule.production.body.isEmpty)
      = [rules[3], rules[70], rules[74]] := rfl

/-- A rule without a body builds the same wherever it is. -/
theorem build_of_empty {index : Nat} {rule : Rule} (h : rules[index]? = some rule)
    (hbody : rule.production.body = []) (s s' : Span) : rule.build s = rule.build s' := by
  have hmem : rule ∈ rules.toList.filter fun rule => rule.production.body.isEmpty :=
    List.mem_filter.2 ⟨List.mem_of_getElem? (by rwa [Array.getElem?_toList]), by rw [hbody]; rfl⟩
  rw [empty_rules] at hmem
  simp only [List.mem_cons, List.not_mem_nil, or_false] at hmem
  rcases hmem with rfl | rfl | rfl <;> rfl

mutual

theorem Phrase.exists_span {symbol : Grammar.Symbol} : (d : Phrase symbol) → d.tokens ≠ [] →
    ∃ s, d.span = some s
  | .token token, _ => ⟨token.span, rfl⟩
  | .node _ _ parts, h => by
      rw [Phrase.span]
      cases hspans : parts.spans with
      | nil => exact absurd hspans (parts.spans_ne_nil h)
      | cons s spans => exact ⟨_, rfl⟩

theorem Phrases.spans_ne_nil {symbols : List Grammar.Symbol} : (ds : Phrases symbols) →
    ds.tokens ≠ [] → ds.spans ≠ []
  | .nil, h => absurd rfl h
  | .cons first others, h => by
      rw [Phrases.spans]
      by_cases hfirst : first.tokens = []
      · rw [Phrases.tokens, hfirst, List.nil_append] at h
        exact List.append_ne_nil_of_right_ne_nil _ (others.spans_ne_nil h)
      · obtain ⟨s, hs⟩ := first.exists_span hfirst
        rw [hs]
        exact List.cons_ne_nil _ _

end

mutual

/-- What a phrase means does not depend on what comes behind it, unless it is
a whole program. -/
theorem Phrase.meaning_next {symbol : Grammar.Symbol} (hs : symbol.isInner = true)
    (next next' : Nat) : (d : Phrase symbol) → d.meaning next = d.meaning next'
  | .token _ => rfl
  | @Phrase.node _ rule hrule parts => by
      have hchecked := List.all_eq_true.1 inner_checked _
        (Lalr.mem_productions (tabulated_production hrule))
      rw [hs, Bool.not_true, Bool.false_or, Bool.and_eq_true, Bool.or_eq_true] at hchecked
      obtain ⟨hinner, hbody⟩ := hchecked
      have hparts := parts.meanings_next (List.all_eq_true.1 hinner) next next'
      have hbuild : rule.build ((Span.coverAll parts.spans).getD (.before next))
          = rule.build ((Span.coverAll parts.spans).getD (.before next')) := by
        rcases hbody with hempty | hnull
        · exact build_of_empty hrule (List.isEmpty_iff.1 hempty) _ _
        · -- a rule that is not empty has a token, and so a span of its own
          have htokens : parts.tokens ≠ [] := by
            intro hnil
            have hadmits := parts.admits.mono (Lalr.ofSequence_le _)
            rw [hnil, Start.Admits] at hadmits
            rw [hadmits] at hnull
            cases hnull
          cases hspans : parts.spans with
          | nil => exact absurd hspans (parts.spans_ne_nil htokens)
          | cons s spans => rfl
      rw [Phrase.meaning, Phrase.meaning, hparts, hbuild]

theorem Phrases.meanings_next {symbols : List Grammar.Symbol}
    (hs : ∀ symbol ∈ symbols, symbol.isInner = true) (next next' : Nat) :
    (ds : Phrases symbols) → ds.meanings next = ds.meanings next'
  | .nil => rfl
  | .cons first others => by
      rw [Phrases.meanings, Phrases.meanings,
        first.meaning_next (hs _ List.mem_cons_self) _ (startOf next' others.tokens),
        others.meanings_next (fun symbol h => hs symbol (List.mem_cons_of_mem _ h)) next next']

end

-- ============================================================== statements

private theorem statements_rules :
    (rules.toList.zipIdx.filter fun entry => entry.1.production.head == .statements)
      = [(rules[2], 2), (rules[3], 3)] := rfl

private theorem program_rules :
    (rules.toList.zipIdx.filter fun entry => entry.1.production.head == .program)
      = [(rules[1], 1)] := rfl

theorem mem_headed {index : Nat} {rule : Rule} (h : rules[index]? = some rule) {head : NonTerminal}
    (hhead : rule.production.head = head) :
    (rule, index) ∈ rules.toList.zipIdx.filter fun entry => entry.1.production.head == head :=
  List.mem_filter.2
    ⟨List.mem_zipIdx_iff_getElem?.2 (by rwa [Array.getElem?_toList]), by simp [hhead]⟩

namespace Phrase

/-- Statements are none, or others with one more behind them. -/
theorem statements_cases {symbol : Grammar.Symbol} :
    (d : Phrase symbol) → (hs : symbol = .nonTerminal .statements) →
    hs ▸ d = noStatements ∨
      ∃ (others : Phrase (.nonTerminal .statements)) (last : Phrase (.nonTerminal .statement)),
        hs ▸ d = others.behind last
  | .node index hrule parts, hs => by
      have hmem := mem_headed hrule (Symbol.nonTerminal.inj hs)
      rw [statements_rules] at hmem
      simp only [List.mem_cons, List.not_mem_nil, or_false, Prod.mk.injEq] at hmem
      rcases hmem with ⟨rfl, rfl⟩ | ⟨rfl, rfl⟩
      · match parts with
        | .cons others (.cons last .nil) => exact .inr ⟨others, last, rfl⟩
      · match parts with
        | .nil => exact .inl rfl

theorem statements_induction {P : Phrase (.nonTerminal .statements) → Prop} (none : P noStatements)
    (more : ∀ (others : Phrase (.nonTerminal .statements)) (last : Phrase (.nonTerminal .statement)),
      P others → P (others.behind last)) (d : Phrase (.nonTerminal .statements)) : P d := by
  induction hsteps : d.steps using Nat.strong_induction_on generalizing d with
  | _ steps ih =>
      subst hsteps
      rcases d.statements_cases rfl with rfl | ⟨others, last, rfl⟩
      · exact none
      · refine more others last (ih others.steps ?_ others rfl)
        simp only [behind, Phrase.steps, Phrases.steps]
        omega

theorem exists_program {symbol : Grammar.Symbol} :
    (d : Phrase symbol) → (hs : symbol = .nonTerminal .program) →
    ∃ statements, hs ▸ d = program statements
  | .node index hrule parts, hs => by
      have hmem := mem_headed hrule (Symbol.nonTerminal.inj hs)
      rw [program_rules] at hmem
      obtain ⟨rfl, rfl⟩ := Prod.mk.inj (List.mem_singleton.1 hmem)
      match parts with
      | .cons statements .nil => exact ⟨statements, rfl⟩

theorem exists_nodes (d : Phrase (.nonTerminal .statements)) (next : Nat) :
    ∃ nodes, d.meaning next = some (.nodes nodes) := by
  obtain ⟨m, hm, hsorted⟩ := @sorted .anything _ next d fun _ _ => trivial
  cases hsorted
  exact ⟨_, hm⟩

theorem exists_node (d : Phrase (.nonTerminal .statement)) (next : Nat) :
    ∃ node, d.meaning next = some (.node node) := by
  obtain ⟨m, hm, hsorted⟩ := @sorted .anything _ next d fun _ _ => trivial
  cases hsorted
  exact ⟨_, hm⟩

/-- Statements with others behind them, one after the other. -/
theorem exists_behind {front : Phrase (.nonTerminal .statements)} (hfront : front.Nearest)
    (back : Phrase (.nonTerminal .statements)) (hback : back.Nearest) :
    ∃ d : Phrase (.nonTerminal .statements), d.tokens = front.tokens ++ back.tokens ∧ d.Nearest ∧
      ∀ next xs ys, front.meaning next = some (.nodes xs) → back.meaning next = some (.nodes ys) →
        d.meaning next = some (.nodes (xs ++ ys)) := by
  induction back using statements_induction with
  | none =>
      refine ⟨front, by simp, hfront, fun next xs ys hxs hys => ?_⟩
      cases hys
      rw [hxs, List.append_nil]
  | more others last ih =>
      obtain ⟨-, hothers, hlast, -⟩ := hback
      obtain ⟨d, htokens, hd, hmeaning⟩ := ih hothers
      refine ⟨d.behind last, by simp [htokens], nearest_behind hd hlast, ?_⟩
      intro next xs ys hxs hys
      obtain ⟨zs, hzs⟩ := others.exists_nodes (startOf next last.tokens)
      obtain ⟨node, hnode⟩ := last.exists_node next
      rw [meaning_behind hzs hnode] at hys
      cases hys
      rw [front.meaning_next rfl next (startOf next last.tokens)] at hxs
      rw [← List.append_assoc]
      exact meaning_behind (hmeaning _ _ _ hxs hzs) hnode

end Phrase

-- =================================================================== texts

private theorem unmatched_checked :
    (productions.all fun p => !p.body.contains (.terminal .unmatched)) = true := by
  decide +kernel

theorem unruled_unmatched : Unruled .unmatched := by
  intro index rule h
  have hchecked := List.all_eq_true.1 unmatched_checked _
    (Lalr.mem_productions (tabulated_production h))
  simpa using hchecked

theorem Parsed.eq_of_fields {parsed : Parsed} {program : Option Node} {errors : List SyntaxError}
    (hprogram : parsed.program = program) (herrors : parsed.errors = errors) :
    parsed = ⟨program, errors⟩ := by
  subst hprogram herrors
  rfl

/-- The tokens of two texts with a line end between them. -/
theorem Token.scan_join {first : String} (h : ∀ token ∈ scan first, token.kind ≠ .unmatched)
    (second : String) :
    ∃ lines, scan (first ++ "\n" ++ second) = (scan first).dropLast ++ (scan second).map
      (moved (Span.shift (first.utf8ByteSize + 1)) (Position.down lines)) := by
  obtain ⟨lines, hcursor⟩ := Cursor.exists_shift (Comment.blank first.toList)
  have htext : (first ++ "\n" ++ second).toList = first.toList ++ '\n' :: second.toList := by
    simp
  refine ⟨lines, ?_⟩
  rw [scan_eq] at h
  rw [scan_eq, scan_eq, scan_eq, htext, Comment.blank_join, scanFrom_join h, hcursor, scanFrom_shift,
    Comment.utf8Len_blank, String.utf8Len_toList]

/-- A text that is read without an error has the tokens of statements. -/
theorem exists_statements {text : String} (h : (parse {} (.ofText text)).errors = []) :
    ∃ (d : Phrase (.nonTerminal .statements)) (eof : Token) (nodes : List Node) (whole : Span),
      Token.scan text = d.tokens ++ [eof] ∧ eof.kind = .endOfInput ∧ d.Nearest ∧
        d.meaning eof.span.start = some (.nodes nodes) ∧
        parse {} (.ofText text) = ⟨some (.block nodes whole), []⟩ := by
  obtain ⟨root, hroot⟩ : ∃ root, (parse {} (.ofText text)).program = some root :=
    Option.ne_none_iff_exists'.1 fun hnone => (parse_good {} (.ofText text)).errors hnone h
  obtain ⟨before, eof, hscan, hbefore, heof⟩ := Token.exists_end .start (Comment.blank text.toList)
  rw [← Token.scan_eq] at hscan
  have hparse : parseTokens {} (.ofText text) (before ++ [eof]) = ⟨some root, []⟩ := by
    rw [← hscan]
    exact Parsed.eq_of_fields hroot h
  obtain ⟨d, rfl⟩ := exists_phrase_of_parseTokens hbefore heof hparse
  obtain ⟨d', htokens, hnear⟩ := d.exists_nearest
  obtain ⟨statements, rfl⟩ := d'.exists_program rfl
  obtain ⟨nodes, hnodes⟩ := statements.exists_nodes eof.span.start
  have hnear' : statements.Nearest := hnear.2.1
  obtain ⟨whole, hparse'⟩ := parseTokens_statements {} (.ofText text) hnear' heof hnodes
  rw [Phrase.tokens_program] at htokens
  rw [htokens, ← hscan] at hparse'
  exact ⟨statements, eof, nodes, whole, htokens ▸ hscan, heof, hnear', hnodes, hparse'⟩

/-- Parsing distributes over a line end. Two texts that are read without an
error are read as one text without an error, to the statements of the first
where they were and those of the second so many bytes further on. -/
theorem parse_join (first second : String) (hfirst : (parse {} (.ofText first)).errors = [])
    (hsecond : (parse {} (.ofText second)).errors = []) :
    ∃ front back whole whole' whole'',
      parse {} (.ofText first) = ⟨some (.block front whole), []⟩ ∧
      parse {} (.ofText second) = ⟨some (.block back whole'), []⟩ ∧
      parse {} (.ofText (first ++ "\n" ++ second)) = ⟨some (.block (front ++ back.map
        (Node.recast (Span.shift (first.utf8ByteSize + 1)) false)) whole''), []⟩ := by
  obtain ⟨d, eof, front, whole, hscan, heof, hd, hfront, hparse⟩ := exists_statements hfirst
  obtain ⟨d', eof', back, whole', hscan', heof', hd', hback, hparse'⟩ := exists_statements hsecond
  refine ⟨front, back, whole, whole', ?_⟩
  have hmatched : ∀ token ∈ Token.scan first, token.kind ≠ .unmatched := by
    rw [hscan]
    refine List.forall_mem_append.2 ⟨d.kind_ne unruled_unmatched (fun e => by cases e), ?_⟩
    rw [List.forall_mem_singleton, heof]
    exact TokenKind.noConfusion
  obtain ⟨lines, hjoin⟩ := Token.scan_join hmatched second
  set bytes := first.utf8ByteSize + 1
  -- the statements of the second text, further on, behind those of the first
  obtain ⟨joined, htokens, hnear, hmeaning⟩ := Phrase.exists_behind hd
    (d'.moved (Span.shift bytes) (Position.down lines)) (Phrase.nearest_moved _ _ _ hd')
  let after : Token := eof'.moved (Span.shift bytes) (Position.down lines)
  have hnodes := hmeaning after.span.start front
    (back.map (Node.recast (Span.shift bytes) false))
    (by rw [← hfront]; exact d.meaning_next rfl _ _)
    (by rw [show after.span.start = eof'.span.start + bytes from rfl, Phrase.meaning_shift, hback]
        rfl)
  obtain ⟨whole'', hwhole⟩ := parseTokens_statements {} (.ofText (first ++ "\n" ++ second)) hnear
    (show after.kind = .endOfInput from heof') hnodes
  refine ⟨whole'', hparse, hparse', ?_⟩
  have hscanned : Token.scan (first ++ "\n" ++ second) = joined.tokens ++ [after] := by
    rw [hjoin, hscan, hscan', htokens, Phrase.tokens_moved]
    simp [after]
  rw [← hwhole, ← hscanned]
  rfl

/-- A loop with a branch and calls twice, the second time 58 bytes further
on. -/
theorem parse_join_logOnce :
    ∃ loop whole, Node.logOnce = .block [loop] ⟨0, 57⟩ ∧
      parse {} (.ofText (logOnceText ++ "\n" ++ logOnceText))
        = ⟨some (.block [loop, loop.recast (Span.shift 58) false] whole), []⟩ := by
  have herrors : (parse {} (.ofText logOnceText)).errors = [] :=
    congrArg Parsed.errors (parse_logOnce {})
  obtain ⟨front, back, _, _, whole, hfront, hback, hjoin⟩ := parse_join _ _ herrors herrors
  rw [parse_logOnce] at hfront hback
  cases hfront
  cases hback
  exact ⟨_, whole, rfl, hjoin⟩

end BoardScript
