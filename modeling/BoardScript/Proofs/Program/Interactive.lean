/-
Interactive input may leave out its last semicolon, and nothing else changes.
It is read without an error just when the tokens are a program, or are one
with a semicolon supplied in front of the end of input; and the program is
the one that is read then (`parse_interactive`).

The semicolon is supplied once the end of input has no action, and before
that rules may have been used that were read to their end there. They are
those that the semicolon would have made the parser use. What may come behind
a phrase that the end of input may follow is either a semicolon too, so that
in no state the two call for different actions (`action_semicolon`), or the
phrase is the whole program, and then no semicolon is missing
(`Stacked.whole`). So the parser that is to find a semicolon and the one that
is to supply it go through the same stacks (`run_unclosed`).
-/
import BoardScript.Proofs.Program.Viable

namespace BoardScript

open Grammar Lalr

-- ============================================== actions in front of the end

private theorem closings_checked :
    (productions.zipIdx.all fun entry => decide (entry.2 ≤ 1) ||
      !(ends entry.1.head).contains .endOfInput ||
        (ends entry.1.head).contains .semicolon) = true := by
  decide +kernel

/-- A rule that is used in front of the end of input is used in front of a
semicolon, if that has an action at all, and if the rule is not that of the
whole program. -/
theorem action_semicolon {s : StateId} {index : Nat} {action : Action} (hs : driver.state s)
    (hindex : index ≠ 1) (h : tables.action s .endOfInput = some (.reduce index))
    (haction : tables.action s .semicolon = some action) : action = .reduce index := by
  obtain ⟨hzero, rule, following, hrule, hmem, hkind⟩ := driver.finished hs h
  have hp := tabulated_production hrule
  obtain ⟨rule', hrule', -, hends⟩ := driver.rule hs hmem
  obtain rfl := Option.some.inj (hrule.symm.trans hrule')
  have hclosing : .semicolon ∈ ends rule.production.head := by
    have hentry : (rule.production, index) ∈ productions.zipIdx := by
      rw [List.mem_zipIdx_iff_getElem?, ← getElem?_productions]
      exact hp
    have hchecked := List.all_eq_true.1 closings_checked _ hentry
    rw [List.contains_iff_mem.2 (hends _ hkind)] at hchecked
    simp only [Bool.not_true, Bool.or_false, Bool.or_eq_true, decide_eq_true_eq] at hchecked
    exact List.contains_iff_mem.1 (hchecked.resolve_left fun h => by omega)
  have hend : tabulated.remaining ⟨index, rule.production.body.length⟩ = [] := by
    rw [remaining_eq hp]
    exact List.drop_length
  obtain ⟨kernel, hk⟩ := hs
  have hfinish := finish_of_action hk hmem hend hp hclosing (fun _ => by decide) haction
  rwa [finish, if_neg hzero] at hfinish

/-- A program stands in the start rule only. -/
theorem item_of_program {tables : Tables} {D : Driver tables} {s : StateId} (hs : D.state s)
    {item : Item} {following : KindSet} (hmem : D.items s item following)
    {rest : List Grammar.Symbol} (hrem : tabulated.remaining item = .nonTerminal .program :: rest) :
    item = ⟨0, 0⟩ := by
  obtain ⟨rule, hrule, -, -⟩ := D.rule hs hmem
  obtain ⟨index, dot⟩ := item
  rw [remaining_eq (tabulated_production hrule)] at hrem
  have hbody : .nonTerminal .program ∈ rule.production.body :=
    List.mem_of_mem_drop (hrem ▸ List.mem_cons_self)
  obtain rfl : index = 0 := by_contra fun hindex => program_notMem_body hrule hindex hbody
  obtain rfl := Option.some.inj (hrule.symm.trans rfl)
  cases dot with
  | zero => rfl
  | succ dot =>
      rw [List.drop_eq_nil_of_le (Nat.le_add_left 1 dot)] at hrem
      cases hrem

/-- Where the rule of the whole program is used, all that was read is one. -/
theorem Stacked.whole {tables : Tables} {D : Driver tables} {stack : List StackEntry}
    {symbols : List Grammar.Symbol} {read : List Token} (h : Stacked D stack symbols read)
    {kind : TokenKind} (haction : tables.action (Parser.stateOf stack) kind = some (.reduce 1)) :
    ∃ d : Phrase (.nonTerminal .program), d.tokens = read := by
  obtain ⟨ds, before, rfl, hbelow, following, hbottom⟩ := h.finished haction rfl
  obtain ⟨⟨item, known, rest, hitem, hrem⟩, -⟩ :=
    D.begun hbelow.state hbottom rfl Nat.one_ne_zero
  obtain rfl := item_of_program hbelow.state hitem hrem
  refine ⟨.node 1 rfl ds, ?_⟩
  generalize stack.drop _ = stack, symbols.drop _ = symbols at hbelow hitem
  cases hbelow with
  | nil => rfl
  | cons below ht _ => exact absurd rfl ((D.moved below.state ht).2.2 hitem).1

-- ================================================== with and without the end

namespace Parser

section

variable {tables : Tables} {p : Parser}

/-- What a step is of a run that meets no error and supplies no semicolon. -/
theorem run_clean (hmay : p.mayClose = false) (hclean : p.lastError = none) {fuel : Nat}
    {root : Node} (h : p.run tables (fuel + 1) = some ⟨some root, []⟩) :
    (∃ state, tables.action p.state p.lookahead.kind = some (.shift state) ∧
      (p.shift state).run tables fuel = some ⟨some root, []⟩) ∨
    (∃ index rule q, tables.action p.state p.lookahead.kind = some (.reduce index) ∧
      rules[index]? = some rule ∧ p.reduce tables rule = some q ∧
      q.run tables fuel = some ⟨some root, []⟩) ∨
    (tables.action p.state p.lookahead.kind = some .accept ∧
      p.step tables = .done ⟨some root, []⟩) := by
  rw [Parser.run] at h
  rcases p.step_cases with ⟨state, haction, hstep⟩ |
    ⟨index, haction, hstep | ⟨rule, q, hrule, hq, hstep⟩⟩ |
    ⟨haction, hstep | ⟨root', hstep⟩⟩ | ⟨-, hsupply, hstep⟩ |
    ⟨-, -, q, ⟨hq, hstep⟩ | ⟨hq, hstep⟩⟩
  all_goals rw [hstep] at h
  · exact .inl ⟨state, haction, h⟩
  · cases h
  · exact .inr (.inl ⟨index, rule, q, haction, hrule, hq, h⟩)
  · cases h
  · exact .inr (.inr ⟨haction, by rw [hstep, Option.some.inj h]⟩)
  · rw [(canSupplySemicolon_iff.1 hsupply).1] at hmay
    cases hmay
  · exact absurd rfl (run_errors (recover_errors (.inl hq) (.inr hclean)) h)
  · cases h

/-- A run comes to one thing, with whatever fuel. -/
theorem run_unique {m n : Nat} {a b : Parsed} (hm : p.run tables m = some a)
    (hn : p.run tables n = some b) : a = b := by
  induction m generalizing n p with
  | zero => cases hm
  | succ m ih =>
      cases n with
      | zero => cases hn
      | succ n =>
          rw [Parser.run] at hm hn
          cases hstep : p.step tables with
          | next q =>
              rw [hstep] at hm hn
              exact ih hm hn
          | done parsed =>
              rw [hstep] at hm hn
              exact Option.some.inj (hm.symm.trans hn)
          | stuck =>
              rw [hstep] at hm
              cases hm

/-- The parser of interactive input, with other tokens at hand. -/
def facing (p : Parser) (supplied : Bool) (token : Token) (rest : List Token) : Parser :=
  { p with options := { interactive := true }, supplied, lookahead := token, rest }

variable {supplied : Bool} {token : Token} {rest : List Token}

/-- A token that both have at hand is read by both. -/
theorem step_facing_shift {state : StateId}
    (haction : tables.action p.state p.lookahead.kind = some (.shift state)) {next : Token}
    {others : List Token} (hrest : p.rest ≠ []) :
    (p.facing supplied p.lookahead (next :: others)).step tables
      = .next ((p.shift state).facing supplied next others) := by
  obtain ⟨first, more, hmore⟩ := List.exists_cons_of_ne_nil hrest
  have haction' : tables.action (p.facing supplied p.lookahead (next :: others)).state
      (p.facing supplied p.lookahead (next :: others)).lookahead.kind = some (.shift state) :=
    haction
  unfold Parser.step
  rw [haction']
  simp only [facing, Parser.shift, Parser.advance, hmore]

/-- A rule that is used on a token is used alike on another that starts at
the same place. -/
theorem step_facing_reduce {index : Nat} {rule : Rule} {q : Parser}
    (haction : tables.action p.state token.kind = some (.reduce index))
    (hrule : rules[index]? = some rule) (hq : p.reduce tables rule = some q)
    (hstart : token.span.start = p.lookahead.span.start) :
    (p.facing supplied token rest).step tables = .next (q.facing supplied token rest) := by
  have haction' : tables.action (p.facing supplied token rest).state
      (p.facing supplied token rest).lookahead.kind = some (.reduce index) := haction
  obtain ⟨m, target, hbuild, hgoto, rfl⟩ := reduce_eq hq
  unfold Parser.step
  rw [haction']
  simp only [facing, hrule, Option.bind_some, Parser.reduce, hstart, hbuild, hgoto,
    Option.bind_eq_bind, Option.pure_def]

/-- Once its semicolon is supplied, interactive input is read like any other. -/
theorem run_facing (hmay : p.mayClose = false) (hclean : p.lastError = none) {fuel : Nat}
    {root : Node} (h : p.run tables fuel = some ⟨some root, []⟩) :
    (p.facing true p.lookahead p.rest).run tables fuel = some ⟨some root, []⟩ := by
  induction fuel generalizing p with
  | zero => cases h
  | succ fuel ih =>
      rw [Parser.run]
      rcases run_clean hmay hclean h with ⟨state, haction, hrun⟩ |
        ⟨index, rule, q, haction, hrule, hq, hrun⟩ | ⟨haction, hstep⟩
      · have hstep : (p.facing true p.lookahead p.rest).step tables = .next
            ((p.shift state).facing true (p.shift state).lookahead (p.shift state).rest) := by
          unfold Parser.step
          rw [show tables.action (p.facing true p.lookahead p.rest).state
            (p.facing true p.lookahead p.rest).lookahead.kind = _ from haction]
          simp only [facing, Parser.shift, Parser.advance]
          cases p.rest <;> rfl
        rw [hstep]
        exact ih ((p.shift_mayClose state).trans hmay)
          ((p.shift_errors state).2.1.trans hclean) hrun
      · have hnext := ih ((reduce_mayClose hq).trans hmay)
          ((reduce_errors hq).2.1.trans hclean) hrun
        rw [step_facing_reduce haction hrule hq rfl]
        obtain ⟨m, target, -, -, rfl⟩ := reduce_eq hq
        exact hnext
      · have hsame : (p.facing true p.lookahead p.rest).step tables = p.step tables := by
          unfold Parser.step
          rw [show tables.action (p.facing true p.lookahead p.rest).state
            (p.facing true p.lookahead p.rest).lookahead.kind = _ from haction, haction]
          rfl
        rw [hsame, hstep]

section

variable {D : Driver tables}
  (hsame : ∀ {s index action}, D.state s → index ≠ 1 →
    tables.action s .endOfInput = some (.reduce index) →
    tables.action s .semicolon = some action → action = .reduce index)
  {eof : Token} {more : List Token} (heof : eof.kind = .endOfInput)

include heof

/-- In front of the end of input the semicolon is supplied, and then both have
the same at hand. -/
theorem step_facing_supply (hlook : p.lookahead = eof.closing) (hrest : p.rest = eof :: more)
    (haction : tables.action p.state .endOfInput = none)
    (hsome : (tables.action p.state .semicolon).isSome = true) :
    (p.facing false eof more).step tables = .next (p.facing true p.lookahead p.rest) := by
  have haction' : tables.action (p.facing false eof more).state
      (p.facing false eof more).lookahead.kind = none := by
    rw [← haction, ← heof]
    rfl
  have hsupply : (p.facing false eof more).canSupplySemicolon tables = true :=
    canSupplySemicolon_iff.2 ⟨rfl, heof, hsome⟩
  unfold Parser.step
  rw [haction']
  simp only [hsupply, if_true]
  rw [hlook, hrest]
  rfl

include hsame

/-- Where one has the semicolon at hand and the other the end of input, and
what was read is no program, either the semicolon is supplied or both use the
same rule. -/
theorem run_gap {read : List Token} {symbols : List Grammar.Symbol} (hp : Stacked D p.stack symbols read)
    (hlook : p.lookahead = eof.closing) (hrest : p.rest = eof :: more)
    (hnot : ¬ ∃ d : Phrase (.nonTerminal .program), d.tokens = read)
    (hmay : p.mayClose = false) (hclean : p.lastError = none) {fuel : Nat} {root : Node}
    (h : p.run tables (fuel + 1) = some ⟨some root, []⟩) :
    (p.facing false eof more).step tables = .next (p.facing true p.lookahead p.rest) ∨
    ∃ index rule q, tables.action p.state eof.kind = some (.reduce index) ∧
      tables.action p.state p.lookahead.kind = some (.reduce index) ∧
      rules[index]? = some rule ∧ p.reduce tables rule = some q ∧
      q.run tables fuel = some ⟨some root, []⟩ := by
  have hsemicolon : p.lookahead.kind = .semicolon := by rw [hlook]; rfl
  have hclean' := run_clean hmay hclean h
  rw [hsemicolon] at hclean'
  cases haction : tables.action p.state .endOfInput with
  | none =>
      refine .inl (step_facing_supply heof hlook hrest haction ?_)
      rcases hclean' with ⟨_, h, -⟩ | ⟨_, _, _, h, -⟩ | ⟨h, -⟩
      all_goals rw [h]; rfl
  | some action =>
      cases action with
      | shift state => exact absurd rfl (D.shifted hp.state haction).2
      | accept =>
          have haccept : tables.action (p.facing false eof more).state
              (p.facing false eof more).lookahead.kind = some .accept := by
            rw [← haction, ← heof]
            rfl
          exact absurd (stacked_accept (p := p.facing false eof more) hp haccept).2 hnot
      | reduce index =>
          have hone : index ≠ 1 := by
            rintro rfl
            exact hnot (hp.whole haction)
          rcases hclean' with ⟨_, haction', -⟩ |
            ⟨index', rule, q, haction', hrule, hq, hrun⟩ | ⟨haction', -⟩
          · cases hsame hp.state hone haction haction'
          · cases hsame hp.state hone haction haction'
            exact .inr ⟨index, rule, q, heof ▸ haction, hsemicolon ▸ haction', hrule, hq, hrun⟩
          · cases hsame hp.state hone haction haction'

/-- A parser that is to find a semicolon in front of the end of input, and one
of interactive input that is to supply it. If the first comes to a program
without an error, and what there is without the semicolon is none, then the
second comes to the same program, with one step more. -/
theorem run_unclosed {front read : List Token} {symbols : List Grammar.Symbol}
    (hp : Stacked D p.stack symbols read)
    (hahead : p.lookahead :: p.rest = front ++ eof.closing :: eof :: more)
    (hother : token :: rest = front ++ eof :: more)
    (hfront : ∀ token ∈ front, token.kind ≠ .endOfInput)
    (hnot : ¬ ∃ d : Phrase (.nonTerminal .program), d.tokens = read ++ front)
    (hmay : p.mayClose = false) (hclean : p.lastError = none) {fuel : Nat} {root : Node}
    (h : p.run tables fuel = some ⟨some root, []⟩) :
    (p.facing false token rest).run tables (fuel + 1) = some ⟨some root, []⟩ := by
  have hend : ∃ token ∈ p.lookahead :: p.rest, token.kind = .endOfInput :=
    ⟨eof, by rw [hahead]; simp, heof⟩
  induction fuel generalizing p symbols read front token rest with
  | zero => cases h
  | succ fuel ih =>
      -- a rule that both use
      have reduced : ∀ {index rule q}, tables.action p.state token.kind = some (.reduce index) →
          tables.action p.state p.lookahead.kind = some (.reduce index) →
          rules[index]? = some rule → p.reduce tables rule = some q →
          token.span.start = p.lookahead.span.start → q.run tables fuel = some ⟨some root, []⟩ →
          (p.facing false token rest).run tables (fuel + 2) = some ⟨some root, []⟩ := by
        intro index rule q hboth haction hrule hq hstart hrun
        obtain ⟨symbols', hstacked, hlook, hrest⟩ := stacked_reduce hp haction hrule hq
        rw [Parser.run, step_facing_reduce hboth hrule hq hstart]
        exact ih hstacked (by rw [hlook, hrest, hahead]) hother hfront hnot
          ((reduce_mayClose hq).trans hmay) ((reduce_errors hq).2.1.trans hclean) hrun
          (by rwa [hlook, hrest])
      cases front with
      | cons first front =>
          -- the token at hand is the same
          obtain ⟨hfirst, hpast⟩ := List.cons.inj hahead
          obtain ⟨rfl, rfl⟩ := List.cons.inj hother
          subst hfirst
          rcases run_clean hmay hclean h with ⟨state, haction, hrun⟩ |
            ⟨index, rule, q, haction, hrule, hq, hrun⟩ | ⟨haction, -⟩
          · obtain ⟨next, others, hnext⟩ : ∃ next others, front ++ eof :: more = next :: others := by
              cases front <;> exact ⟨_, _, rfl⟩
            obtain ⟨-, hshift, hend', hstacked⟩ := stacked_shift hp haction hend
            rw [List.append_eq, hnext, Parser.run,
              step_facing_shift haction (by rw [hshift]; exact List.cons_ne_nil _ _)]
            refine ih hstacked (hshift.symm.trans hpast) hnext.symm
              (fun token hmem => hfront token (List.mem_cons_of_mem _ hmem)) ?_
              ((p.shift_mayClose state).trans hmay) ((p.shift_errors state).2.1.trans hclean) hrun
              hend'
            rwa [List.append_assoc, List.singleton_append]
          · exact reduced haction haction hrule hq rfl hrun
          · exact absurd (stacked_accept hp haction).1 (hfront _ List.mem_cons_self)
      | nil =>
          -- the one has the semicolon at hand, the other the end of input
          obtain ⟨hlook, hpast⟩ := List.cons.inj hahead
          obtain ⟨rfl, rfl⟩ := List.cons.inj hother
          rw [List.append_nil] at hnot
          rcases run_gap hsame heof hp hlook hpast hnot hmay hclean h with hstep |
            ⟨index, rule, q, hboth, haction, hrule, hq, hrun⟩
          · rw [Parser.run, hstep]
            exact run_facing hmay hclean h
          · exact reduced hboth haction hrule hq (congrArg (·.span.start) hlook.symm) hrun

end

end

end Parser

-- ==================================================================== parses

/-- Tokens that end with the end of input, cut in front of the first one. -/
theorem Ended.cut {tokens : List Token} (h : Ended tokens) :
    ∃ before eof more, tokens = before ++ eof :: more ∧ eof.kind = .endOfInput ∧
      ∀ token ∈ before, token.kind ≠ .endOfInput := by
  induction tokens with
  | nil =>
      obtain ⟨last, hlast, -⟩ := h
      cases hlast
  | cons first rest ih =>
      by_cases hfirst : first.kind = .endOfInput
      · exact ⟨[], first, rest, rfl, hfirst, List.forall_mem_nil _⟩
      · obtain ⟨token, others, rfl, hrest⟩ := h.tail hfirst
        obtain ⟨before, eof, more, htokens, heof, hbefore⟩ := ih hrest
        exact ⟨first :: before, eof, more, congrArg _ htokens, heof,
          List.forall_mem_cons.2 ⟨hfirst, hbefore⟩⟩

/-- Tokens are parsed without an error just when there is a program. -/
theorem parseTokens_errors (options : ParseOptions) (source : Source) {tokens : List Token}
    (h : Ended tokens) : (parseTokens options source tokens).errors = [] ↔
      ∃ root, parseTokens options source tokens = ⟨some root, []⟩ := by
  refine ⟨fun herrors => ?_, fun ⟨root, hroot⟩ => hroot ▸ rfl⟩
  have hgood := parseTokens_good options source h
  cases hparsed : parseTokens options source tokens with
  | mk program errors =>
      rw [hparsed] at herrors hgood
      cases program with
      | none => exact absurd herrors (hgood.errors rfl)
      | some root => exact ⟨root, congrArg _ herrors⟩

/-- A program in front of the end of input is parsed alike under all options. -/
theorem parseTokens_options (source : Source) (d : Phrase (.nonTerminal .program)) {eof : Token}
    (heof : eof.kind = .endOfInput) (more : List Token) :
    ∃ root, ∀ options, parseTokens options source (d.tokens ++ eof :: more) = ⟨some root, []⟩ := by
  obtain ⟨d', htokens, hnear⟩ := d.exists_nearest
  obtain ⟨root, hmeaning, -⟩ := parseTokens_phrase {} source d' hnear more heof
  refine ⟨root, fun options => ?_⟩
  obtain ⟨root', hmeaning', hparse⟩ := parseTokens_phrase options source d' hnear more heof
  cases hmeaning.symm.trans hmeaning'
  rw [← htokens]
  exact hparse

/-- Tokens up to the end of input are parsed without an error just when they are
those of a program. -/
theorem parseTokens_clean_iff (source : Source) {front more : List Token} {eof : Token}
    (hfront : ∀ token ∈ front, token.kind ≠ .endOfInput) (heof : eof.kind = .endOfInput)
    (hended : Ended (front ++ eof :: more)) :
    (parseTokens {} source (front ++ eof :: more)).errors = [] ↔
      ∃ d : Phrase (.nonTerminal .program), d.tokens = front := by
  rw [parseTokens_errors {} source hended]
  constructor
  · rintro ⟨root, hroot⟩
    exact exists_phrase_of_parseTokens hfront heof hroot
  · rintro ⟨d, rfl⟩
    obtain ⟨root, hroot⟩ := parseTokens_options source d heof more
    exact ⟨root, hroot {}⟩

/-- What interactive input is parsed to without an error is a program, or is
one behind which a semicolon is supplied. -/
theorem exists_phrase_of_interactive {source : Source} {before more : List Token} {eof : Token}
    (hbefore : ∀ token ∈ before, token.kind ≠ .endOfInput) (heof : eof.kind = .endOfInput)
    (hended : Ended (before ++ eof :: more)) {root : Node}
    (h : parseTokens { interactive := true } source (before ++ eof :: more) = ⟨some root, []⟩) :
    ∃ d : Phrase (.nonTerminal .program), d.tokens = before ∨ d.tokens = before ++ [eof.closing] := by
  have hrun := run_parseTokens { interactive := true } source hended
  rw [h] at hrun
  have hstart := Parser.Accounts.start driver { interactive := true } source
    ⟨eof, List.mem_append_right before (List.mem_cons_self (l := more)), heof⟩
  obtain ⟨d, after, more', hafter, hread⟩ := Parser.run_accepts hstart rfl hrun
  have hd := d.kind_ne_end (fun e => by cases e)
  rcases hread with hread | ⟨-, hread⟩
  · exact ⟨d, .inl (cut_unique hread hbefore hd heof hafter).1.symm⟩
  · have hclosing : ∀ token ∈ before ++ [eof.closing], token.kind ≠ .endOfInput :=
      List.forall_mem_append.2 ⟨hbefore, List.forall_mem_singleton.2 nofun⟩
    rw [closed_append hbefore heof, List.append_cons] at hread
    exact ⟨d, .inr (cut_unique hread hclosing hd heof hafter).1.symm⟩

/-- What is no program but is one with a semicolon behind it is parsed as
interactive input to what it is parsed to with the semicolon. -/
theorem parseTokens_unclosed {source : Source} {before more : List Token} {eof : Token}
    (hbefore : ∀ token ∈ before, token.kind ≠ .endOfInput) (heof : eof.kind = .endOfInput)
    (hended : Ended (before ++ eof :: more))
    (hnot : ¬ ∃ d : Phrase (.nonTerminal .program), d.tokens = before) {root : Node}
    (h : parseTokens {} source ((before ++ [eof.closing]) ++ eof :: more) = ⟨some root, []⟩) :
    parseTokens { interactive := true } source (before ++ eof :: more) = ⟨some root, []⟩ := by
  have hrun := run_parseTokens {} source (hended.behind.after (before ++ [eof.closing]))
  rw [h] at hrun
  have hahead : (Parser.start {} source ((before ++ [eof.closing]) ++ eof :: more)).lookahead ::
      (Parser.start {} source ((before ++ [eof.closing]) ++ eof :: more)).rest
        = before ++ eof.closing :: eof :: more := by
    rw [List.append_assoc]
    cases before <;> rfl
  obtain ⟨token, rest, htokens⟩ : ∃ token rest, before ++ eof :: more = token :: rest := by
    cases before <;> exact ⟨_, _, rfl⟩
  have hempty : Stacked driver (Parser.start {} source
      ((before ++ [eof.closing]) ++ eof :: more)).stack [] [] := .nil
  have hsteps := Parser.run_unclosed action_semicolon heof hempty hahead htokens.symm hbefore hnot
    rfl rfl hrun
  have hother := run_parseTokens { interactive := true } source hended
  rw [htokens] at hother ⊢
  exact Parser.run_unique hother hsteps

/-- Tokens that are parsed with a semicolon supplied, or without. -/
theorem parseTokens_interactive (source : Source) {tokens : List Token} (h : Ended tokens) :
    ((parseTokens { interactive := true } source tokens).errors = [] ↔
      (parseTokens {} source tokens).errors = [] ∨
        (parseTokens {} source (closed tokens)).errors = []) ∧
    ((parseTokens {} source tokens).errors = [] →
      parseTokens { interactive := true } source tokens = parseTokens {} source tokens) ∧
    ((parseTokens {} source tokens).errors ≠ [] →
      (parseTokens {} source (closed tokens)).errors = [] →
        parseTokens { interactive := true } source tokens
          = parseTokens {} source (closed tokens)) := by
  obtain ⟨before, eof, more, rfl, heof, hbefore⟩ := h.cut
  have hclosing : ∀ token ∈ before ++ [eof.closing], token.kind ≠ .endOfInput :=
    List.forall_mem_append.2 ⟨hbefore, List.forall_mem_singleton.2 nofun⟩
  have hclosed : closed (before ++ eof :: more) = (before ++ [eof.closing]) ++ eof :: more := by
    rw [closed_append hbefore heof, List.append_cons]
  have hended : Ended ((before ++ [eof.closing]) ++ eof :: more) := h.behind.after _
  rw [hclosed]
  have plain := parseTokens_clean_iff source hbefore heof h
  have supplied := parseTokens_clean_iff source hclosing heof hended
  have same : (parseTokens {} source (before ++ eof :: more)).errors = [] →
      parseTokens { interactive := true } source (before ++ eof :: more)
        = parseTokens {} source (before ++ eof :: more) := by
    intro herrors
    obtain ⟨d, rfl⟩ := plain.1 herrors
    obtain ⟨root, hroot⟩ := parseTokens_options source d heof more
    rw [hroot, hroot]
  have closes : (parseTokens {} source (before ++ eof :: more)).errors ≠ [] →
      (parseTokens {} source ((before ++ [eof.closing]) ++ eof :: more)).errors = [] →
      parseTokens { interactive := true } source (before ++ eof :: more)
        = parseTokens {} source ((before ++ [eof.closing]) ++ eof :: more) := by
    intro hplain hsupplied
    obtain ⟨root, hroot⟩ := (parseTokens_errors _ source hended).1 hsupplied
    rw [parseTokens_unclosed hbefore heof h (fun hd => hplain (plain.2 hd)) hroot, hroot]
  refine ⟨⟨fun herrors => ?_, fun herrors => ?_⟩, same, closes⟩
  · obtain ⟨root, hroot⟩ := (parseTokens_errors _ source h).1 herrors
    obtain ⟨d, hd | hd⟩ := exists_phrase_of_interactive hbefore heof h hroot
    · exact .inl (plain.2 ⟨d, hd⟩)
    · exact .inr (supplied.2 ⟨d, hd⟩)
  · by_cases hplain : (parseTokens {} source (before ++ eof :: more)).errors = []
    · rw [same hplain, hplain]
    · have hsupplied := herrors.resolve_left hplain
      rw [closes hplain hsupplied, hsupplied]

/-- Interactive input may leave out its last semicolon, and that is all it may.
It is parsed without an error just when the tokens are, or the tokens with a
semicolon of no width in front of the end of input; and it comes to what those
come to, the first if both are. So a text without an error is parsed alike. -/
theorem parse_interactive (source : Source) :
    (∀ tokens, Ended tokens →
      ((parseTokens { interactive := true } source tokens).errors = [] ↔
        (parseTokens {} source tokens).errors = [] ∨
          (parseTokens {} source (closed tokens)).errors = []) ∧
      ((parseTokens {} source tokens).errors = [] →
        parseTokens { interactive := true } source tokens = parseTokens {} source tokens) ∧
      ((parseTokens {} source tokens).errors ≠ [] →
        (parseTokens {} source (closed tokens)).errors = [] →
          parseTokens { interactive := true } source tokens
            = parseTokens {} source (closed tokens))) ∧
    ((parse {} source).errors = [] → parse { interactive := true } source = parse {} source) :=
  ⟨fun _ h => parseTokens_interactive source h, (parseTokens_interactive source
    (ended_scan source.text)).2.1⟩

-- ============================================================== last tokens

/-- Nonterminals that stand for lines of a program. -/
def lineHeads : List NonTerminal := [.program, .statements, .statement]

/-- Kinds with which a line ends. -/
def lineEnds : List TokenKind := [.semicolon, .rightBrace]

/-- Whether whatever a sequence stands for ends as a line does. -/
def closing : List Grammar.Symbol → Bool
  | [] => true
  | [.terminal kind] => lineEnds.contains kind
  | [.nonTerminal n] => lineHeads.contains n
  | _ :: symbol :: rest =>
      closing (symbol :: rest) && !(startBound.ofSequence (symbol :: rest)).nullable

theorem closing_cons (first second : Grammar.Symbol) (rest : List Grammar.Symbol) :
    closing (first :: second :: rest)
      = (closing (second :: rest) && !(startBound.ofSequence (second :: rest)).nullable) := by
  cases first <;> rfl

private theorem lines_checked :
    (productions.all fun p => !lineHeads.contains p.head || closing p.body) = true := by
  decide +kernel

mutual

/-- A program ends with a semicolon or a brace. -/
theorem Phrase.last_kind : {symbol : Grammar.Symbol} → (d : Phrase symbol) →
    closing [symbol] = true → ∀ token, d.tokens.getLast? = some token → token.kind ∈ lineEnds
  | _, .token _, h, _, hlast => by
      obtain rfl := Option.some.inj hlast
      exact List.contains_iff_mem.1 h
  | _, .node _ hrule parts, h, token, hlast => by
      have hchecked := List.all_eq_true.1 lines_checked _
        (mem_productions (tabulated_production hrule))
      rw [show lineHeads.contains _ = true from h] at hchecked
      exact parts.last_kind hchecked token hlast

theorem Phrases.last_kind : {symbols : List Grammar.Symbol} → (ds : Phrases symbols) →
    closing symbols = true → ∀ token, ds.tokens.getLast? = some token → token.kind ∈ lineEnds
  | _, .nil, _, _, hlast => by cases hlast
  | _, .cons first .nil, h, token, hlast => by
      rw [Phrases.tokens, Phrases.tokens, List.append_nil] at hlast
      have hfirst : closing [_] = true := h
      exact first.last_kind hfirst token hlast
  | _, .cons first (.cons second others), h, token, hlast => by
      rw [closing_cons, Bool.and_eq_true_iff, Bool.not_eq_true'] at h
      obtain ⟨hrest, hnull⟩ := h
      -- what comes last is not empty
      have hadmits := (Phrases.cons second others).admits.mono (ofSequence_le _)
      rw [Phrases.tokens] at hlast
      cases htokens : (Phrases.cons second others).tokens with
      | nil =>
          rw [htokens] at hadmits
          cases hnull.symm.trans hadmits
      | cons t ts =>
          rw [htokens, List.getLast?_append_of_ne_nil _ (List.cons_ne_nil _ _), ← htokens] at hlast
          exact (Phrases.cons second others).last_kind hrest token hlast

end

/-- The text `use B` is no program, and is parsed as interactive input like
`use B;`. -/
theorem parse_interactive_use :
    (parse {} (.ofText "use B")).errors ≠ [] ∧
      parse { interactive := true } (.ofText "use B")
        = parseTokens {} (.ofText "use B") (closed (Token.scan "use B")) ∧
      (parse { interactive := true } (.ofText "use B")).errors = [] := by
  let use : Token := ⟨.useWord, "use", ⟨0, 3⟩, ⟨1, 1⟩⟩
  let board : Token := ⟨.identifier, "B", ⟨4, 1⟩, ⟨1, 5⟩⟩
  let eof : Token := ⟨.endOfInput, "", ⟨5, 0⟩, ⟨1, 6⟩⟩
  have hscan : Token.scan "use B" = [use, board, eof] := by
    rw [Token.scan_eq]
    cbv
  have hended : Ended (Token.scan "use B") := ended_scan _
  have hnot : (parseTokens {} (.ofText "use B") (Token.scan "use B")).errors ≠ [] := by
    intro herrors
    obtain ⟨root, hroot⟩ := (parseTokens_errors _ _ hended).1 herrors
    rw [hscan] at hroot
    obtain ⟨d, hd⟩ := @exists_phrase_of_parseTokens _ [use, board] _ _ (by decide) rfl _ hroot
    have hlast := d.last_kind rfl board (by rw [hd]; rfl)
    exact absurd hlast (by decide)
  have hclosed : (parseTokens {} (.ofText "use B") (closed (Token.scan "use B"))).errors = [] := by
    let statement : Phrase (.nonTerminal .statement) := .node 9 rfl
      (.cons (.token use) (.cons (.token board) (.cons (.token eof.closing) .nil)))
    let statements : Phrase (.nonTerminal .statements) :=
      .node 2 rfl (.cons (.node 3 rfl .nil) (.cons statement .nil))
    obtain ⟨root, hroot⟩ := @parseTokens_options (.ofText "use B")
      (.node 1 rfl (.cons statements .nil)) eof rfl []
    have htokens : closed (Token.scan "use B") = [use, board, eof.closing] ++ [eof] := by
      rw [hscan]
      rfl
    rw [htokens]
    exact congrArg Parsed.errors (hroot {})
  have hsame := ((parse_interactive (.ofText "use B")).1 _ hended).2.2 hnot hclosed
  refine ⟨hnot, hsame, ?_⟩
  show (parseTokens { interactive := true } _ (Token.scan "use B")).errors = []
  rw [hsame, hclosed]

end BoardScript
