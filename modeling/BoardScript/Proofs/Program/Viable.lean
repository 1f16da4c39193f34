/-
Where the first syntax error is. What the parser has read without an error
can always be gone on with to a program (`Stacked.viable`): an item of the
state on top says what would complete its rule, and where that rule was
brought in says what would complete the rule around it, down to the start
rule at the bottom of the stack.

On the other hand the parser does not look behind the token at hand. If
tokens and the one at hand begin a program, then the parser does with them
what it does with that program, and that is no error. So the first error is
at the first token with which no program goes on (`first_error`).
-/
import BoardScript.Proofs.Program.Grammatical
import BoardScript.Proofs.Program.Progress

namespace BoardScript

open Grammar Lalr

-- ============================================================ completions

/-- Nonterminals by height: each has a rule over lower ones, and of those
that a nonterminal brings in each stands first in a rule for a higher one. -/
def height : NonTerminal → Nat
  | .object | .parameterList | .propertyName => 0
  | .value | .parameters => 1
  | .access => 2
  | .power | .target => 3
  | .unary => 4
  | .product => 5
  | .sum => 6
  | .comparison => 7
  | .conjunction => 8
  | .disjunction => 9
  | .expression => 10
  | .assignment | .argumentList | .properties => 11
  | .statement | .arguments => 12
  | .statements => 13
  | .program => 14
  | .accept => 15

theorem height_lt (n : NonTerminal) : height n < 16 := by cases n <;> decide

private theorem height_checked :
    (nonTerminals.all fun n =>
      (productions.any fun p => p.head == n && p.body.all fun
        | .nonTerminal m => height m < height n
        | .terminal _ => true) &&
      (reach n).all fun m => m == n || productions.any fun p => (reach n).contains p.head &&
        match p.body with
        | .nonTerminal k :: _ => k == m && height m < height p.head
        | _ => false) = true := by
  decide +kernel

/-- A nonterminal has a rule over lower ones. -/
theorem exists_lower (n : NonTerminal) : ∃ p ∈ productions, p.head = n ∧
    ∀ m, .nonTerminal m ∈ p.body → height m < height n := by
  have h := (Bool.and_eq_true_iff.1 (List.all_eq_true.1 height_checked n (mem_nonTerminals n))).1
  obtain ⟨p, hp, hbody⟩ := List.any_eq_true.1 h
  rw [Bool.and_eq_true, beq_iff_eq] at hbody
  refine ⟨p, hp, hbody.1, fun m hm => ?_⟩
  exact of_decide_eq_true (List.all_eq_true.1 hbody.2 _ hm)

/-- What a nonterminal brings in stands first in a rule for a higher one
that it brings in. -/
theorem exists_higher {n m : NonTerminal} (h : m ∈ reach n) (hne : m ≠ n) :
    ∃ p ∈ productions, p.head ∈ reach n ∧ height m < height p.head ∧
      ∃ rest, p.body = .nonTerminal m :: rest := by
  have hall := (Bool.and_eq_true_iff.1
    (List.all_eq_true.1 height_checked n (mem_nonTerminals n))).2
  have hm := List.all_eq_true.1 hall m h
  rw [Bool.or_eq_true, beq_iff_eq] at hm
  obtain ⟨p, hp, hbody⟩ := List.any_eq_true.1 (hm.resolve_left hne)
  rw [Bool.and_eq_true] at hbody
  obtain ⟨hhead, hbody⟩ := hbody
  refine ⟨p, hp, List.contains_iff_mem.1 hhead, ?_⟩
  split at hbody
  · rename_i k rest heq
    rw [Bool.and_eq_true, beq_iff_eq, decide_eq_true_eq] at hbody
    obtain ⟨rfl, hlt⟩ := hbody
    exact ⟨hlt, rest, heq⟩
  · cases hbody

/-- A production derives what its body derives. -/
theorem Derivable.production {p : Production} (hp : p ∈ productions) {tokens : List Token}
    (h : Derivable p.body tokens) : Derivable [.nonTerminal p.head] tokens := by
  obtain ⟨index, hindex⟩ := List.mem_iff_getElem?.1 hp
  obtain ⟨rule, hrule, rfl⟩ := exists_rule ((getElem?_productions index).trans hindex)
  exact h.node hrule

/-- A sequence derives some tokens if each of its nonterminals does. -/
theorem exists_derivable_of {symbols : List Grammar.Symbol}
    (h : ∀ n, .nonTerminal n ∈ symbols → ∃ tokens, Derivable [.nonTerminal n] tokens) :
    ∃ tokens, Derivable symbols tokens := by
  induction symbols with
  | nil => exact ⟨[], .nil, rfl⟩
  | cons symbol symbols ih =>
      obtain ⟨tokens, hothers⟩ := ih fun n hn => h n (List.mem_cons_of_mem _ hn)
      cases symbol with
      | terminal kind =>
          exact ⟨_, (Derivable.ofTokens [⟨kind, "", ⟨0, 0⟩, ⟨1, 1⟩⟩]).append hothers⟩
      | nonTerminal n =>
          obtain ⟨first, hfirst⟩ := h n List.mem_cons_self
          exact ⟨_, hfirst.append hothers⟩

/-- Every nonterminal derives some tokens. -/
theorem exists_derivable_nonTerminal (n : NonTerminal) :
    ∃ tokens, Derivable [.nonTerminal n] tokens := by
  obtain ⟨p, hp, hhead, hlower⟩ := exists_lower n
  obtain ⟨tokens, htokens⟩ := exists_derivable_of fun m hm =>
    have := hlower m hm
    exists_derivable_nonTerminal m
  exact ⟨tokens, hhead ▸ htokens.production hp⟩
termination_by height n

/-- Every sequence derives some tokens. -/
theorem exists_derivable (symbols : List Grammar.Symbol) : ∃ tokens, Derivable symbols tokens :=
  exists_derivable_of fun n _ => exists_derivable_nonTerminal n

/-- What a nonterminal brings in begins something that it derives. -/
theorem Derivable.climb {n m : NonTerminal} (h : m ∈ reach n) {tokens : List Token}
    (hm : Derivable [.nonTerminal m] tokens) :
    ∃ more, Derivable [.nonTerminal n] (tokens ++ more) := by
  by_cases hne : m = n
  · subst hne
    exact ⟨[], by rwa [List.append_nil]⟩
  · obtain ⟨p, hp, hhead, hlt, rest, hbody⟩ := exists_higher h hne
    obtain ⟨later, hlater⟩ := exists_derivable rest
    have hwhole : Derivable [.nonTerminal p.head] (tokens ++ later) := by
      refine Derivable.production hp ?_
      rw [hbody]
      exact hm.append hlater
    have := height_lt p.head
    obtain ⟨more, hmore⟩ := Derivable.climb hhead hwhole
    exact ⟨later ++ more, by rwa [← List.append_assoc]⟩
termination_by 16 - height m

-- =========================================================== viable tokens

/-- Kinds that begin those of a program with the end of input behind it. -/
def Viable (kinds : List TokenKind) : Prop :=
  ∃ sentence ∈ grammar.language, kinds <+: sentence ++ [.endOfInput]

/-- Tokens that can be gone on with to a program. -/
def Continues (tokens : List Token) : Prop :=
  ∃ more, Derivable [.nonTerminal .program] (tokens ++ more)

theorem Continues.of_append {tokens more : List Token} (h : Continues (tokens ++ more)) :
    Continues tokens := by
  obtain ⟨rest, hrest⟩ := h
  exact ⟨more ++ rest, by rwa [← List.append_assoc]⟩

theorem Continues.viable {tokens : List Token} (h : Continues tokens) :
    Viable (tokens.map (·.kind)) := by
  obtain ⟨more, hmore⟩ := h
  refine ⟨_, mem_language.2 hmore.exists_phrase, ?_⟩
  rw [List.map_append, List.append_assoc]
  exact List.prefix_append _ _

/-- Whatever is on the stack, the state on top has an item. -/
theorem Path.exists_item {stack : List StackEntry} {symbols : List Grammar.Symbol}
    (h : Path driver stack symbols) :
    ∃ item following, driver.items (Parser.stateOf stack) item following := by
  cases h with
  | nil => exact ⟨_, _, driver.start.2.choose_spec.1⟩
  | cons below ht =>
      obtain ⟨item, following, rest, hmem, hrem⟩ := driver_origin below.state ht
      obtain ⟨t, known, ht', hknown, -⟩ := driver.advance below.state hmem hrem
      obtain rfl := Option.some.inj (ht.symm.trans ht')
      exact ⟨_, _, hknown⟩

namespace Stacked

variable {tables : Tables} {D : Driver tables} {stack : List StackEntry}
  {symbols : List Grammar.Symbol} {read next : List Token} {following : KindSet}

/-- The start rule is only at the bottom, where it is followed by a program. -/
theorem continues_start (h : Stacked D stack symbols read)
    (hmem : D.items (Parser.stateOf stack) ⟨0, 0⟩ following)
    (hnext : Derivable (tabulated.remaining ⟨0, 0⟩) next) : Continues (read ++ next) := by
  have hprogram : Derivable [.nonTerminal .program] next := hnext
  cases h with
  | nil => exact ⟨[], by simpa using hprogram⟩
  | cons below ht _ => exact absurd rfl ((D.moved below.state ht).2.2 hmem).1

/-- What was read of a rule that has been begun is on top of the stack, above
a state where nothing has been read of the rule. -/
theorem unread (h : Stacked D stack symbols read) {index dot : Nat} (hdot : dot ≠ 0)
    (hmem : D.items (Parser.stateOf stack) ⟨index, dot⟩ following)
    (hnext : Derivable (tabulated.remaining ⟨index, dot⟩) next) :
    ∃ before inside symbols' known, read = before ++ inside ∧
      Stacked D (stack.drop dot) symbols' before ∧
      D.items (Parser.stateOf (stack.drop dot)) ⟨index, 0⟩ known ∧
      Derivable (tabulated.remaining ⟨index, 0⟩) (inside ++ next) ∧
      (stack.drop dot).length < stack.length := by
  obtain ⟨rule, hrule, hle, -⟩ := D.rule h.state hmem
  obtain ⟨htake, known, hbottom⟩ := h.path.item hrule hmem
  have hlength : (rule.production.body.take dot).length = dot := List.length_take_of_le hle
  obtain ⟨parts, before, hread, hbelow⟩ := h.split (by rw [hlength]; exact htake)
  rw [hlength] at hbelow
  refine ⟨before, parts.tokens, _, known, hread, hbelow, hbottom, ?_, ?_⟩
  · rw [remaining_eq (tabulated_production hrule)] at hnext ⊢
    have hbody := Derivable.append ⟨parts, rfl⟩ hnext
    rwa [List.take_append_drop] at hbody
  · have hne : stack ≠ [] := by
      rintro rfl
      exact hdot (D.unread hmem)
    rw [List.length_drop]
    exact Nat.sub_lt (List.length_pos_iff.2 hne) (Nat.pos_of_ne_zero hdot)

/-- What completes a rule of which nothing has been read begins what
completes a rule that brought it in. -/
theorem brought (h : Stacked D stack symbols read) {index : Nat} (hindex : index ≠ 0)
    (hmem : D.items (Parser.stateOf stack) ⟨index, 0⟩ following)
    (hnext : Derivable (tabulated.remaining ⟨index, 0⟩) next) :
    ∃ item known more, D.items (Parser.stateOf stack) item known ∧
      (item = ⟨0, 0⟩ ∨ item.dot ≠ 0) ∧ Derivable (tabulated.remaining item) (next ++ more) := by
  obtain ⟨rule, hrule, -, -⟩ := D.rule h.state hmem
  obtain ⟨-, item, known, n, rest, hitem, hcase, hrem, hreach⟩ := D.begun h.state hmem hrule hindex
  rw [remaining_eq (tabulated_production hrule), List.drop_zero] at hnext
  obtain ⟨more, hmore⟩ := (hnext.node hrule).climb hreach
  obtain ⟨later, hlater⟩ := exists_derivable rest
  refine ⟨item, known, more ++ later, hitem, hcase, ?_⟩
  rw [hrem, ← List.append_assoc]
  exact hmore.append hlater

/-- What was read, and whatever completes an item of the state on top, can be
gone on with to a program. -/
theorem continues (h : Stacked D stack symbols read) {item : Item}
    (hmem : D.items (Parser.stateOf stack) item following)
    (hnext : Derivable (tabulated.remaining item) next) : Continues (read ++ next) := by
  -- down the stack: a rule that has been begun was brought in further below
  induction hlength : stack.length using Nat.strong_induction_on
    generalizing stack symbols read item following next with
  | h length ih =>
      subst hlength
      have begun : ∀ {item known next}, D.items (Parser.stateOf stack) item known →
          item.dot ≠ 0 → Derivable (tabulated.remaining item) next → Continues (read ++ next) := by
        intro item known next hitem hdot hnext
        obtain ⟨before, inside, symbols', f, rfl, hbelow, hbottom, hwhole, hshorter⟩ :=
          h.unread hdot hitem hnext
        have := ih _ hshorter hbelow hbottom hwhole rfl
        rwa [← List.append_assoc] at this
      obtain ⟨index, dot⟩ := item
      by_cases hdot : dot = 0
      · subst hdot
        by_cases hindex : index = 0
        · subst hindex
          exact h.continues_start hmem hnext
        · obtain ⟨item, known, more, hitem, hcase, hcomplete⟩ := h.brought hindex hmem hnext
          suffices hall : Continues ((read ++ next) ++ more) from hall.of_append
          rw [List.append_assoc]
          rcases hcase with rfl | hdot
          · exact h.continues_start hitem hcomplete
          · exact begun hitem hdot hcomplete
      · exact begun hmem hdot hnext

/-- Whatever was read without an error begins a program. -/
theorem viable (h : Stacked driver stack symbols read) : Viable (read.map (·.kind)) := by
  obtain ⟨item, following, hmem⟩ := h.path.exists_item
  obtain ⟨next, hnext⟩ := exists_derivable (tabulated.remaining item)
  exact (h.continues hmem hnext).of_append.viable

end Stacked

/-- Viable tokens, the last of which may be the end of input, begin tokens
that are parsed without an error. -/
theorem Viable.exists_parse (source : Source) {front : List Token} {token : Token}
    (h : Viable ((front ++ [token]).map (·.kind))) :
    ∃ back root, Ended (token :: back) ∧
      parseTokens {} source (front ++ token :: back) = ⟨some root, []⟩ := by
  obtain ⟨sentence, hsentence, more, hmore⟩ := h
  rw [List.map_append, List.map_singleton, List.append_assoc, List.singleton_append] at hmore
  -- a token of each kind behind the ones at hand
  let blank (kind : TokenKind) : Token := ⟨kind, "", ⟨0, 0⟩, ⟨1, 1⟩⟩
  have hblank : ∀ kinds : List TokenKind, (kinds.map blank).map (·.kind) = kinds := fun kinds => by
    rw [List.map_map]
    exact List.map_id kinds
  have accepted : ∀ {tokens more : List Token} {eof : Token}, tokens.map (·.kind) ∈ grammar.language →
      eof.kind = .endOfInput →
      ∃ root, parseTokens {} source (tokens ++ eof :: more) = ⟨some root, []⟩ := by
    intro tokens more eof hmem heof
    obtain ⟨d, rfl⟩ := mem_language.1 hmem
    obtain ⟨d', htokens, hnear⟩ := d.exists_nearest
    obtain ⟨root, -, hparse⟩ := parseTokens_phrase {} source d' hnear more heof
    exact ⟨root, htokens ▸ hparse⟩
  rcases List.eq_nil_or_concat more with rfl | ⟨more, last, rfl⟩
  · -- the token is the end of input
    obtain ⟨hfront, hkind⟩ := List.append_inj' hmore rfl
    obtain ⟨root, hroot⟩ := @accepted _ [] _ (hfront ▸ hsentence) (List.cons.inj hkind).1
    exact ⟨[], root, ⟨token, rfl, (List.cons.inj hkind).1⟩, hroot⟩
  · rw [List.concat_eq_append, ← List.cons_append, ← List.append_assoc] at hmore
    obtain ⟨hfront, -⟩ := List.append_inj' hmore rfl
    have hkinds : (front ++ token :: more.map blank).map (·.kind) = sentence := by
      rw [List.map_append, List.map_cons, hblank, hfront]
    obtain ⟨root, hroot⟩ := @accepted _ [] _ (hkinds ▸ hsentence)
      (show (blank .endOfInput).kind = .endOfInput from rfl)
    refine ⟨more.map blank ++ [blank .endOfInput], root, ⟨blank .endOfInput, ?_, rfl⟩, ?_⟩
    · rw [← List.cons_append, List.getLast?_append_of_ne_nil _ (List.cons_ne_nil _ _)]
      rfl
    · rwa [List.append_assoc, List.cons_append] at hroot

-- ============================================================ the first error

namespace Parser

variable {tables : Tables}

/-- What is on record of the token at hand if it is an error. -/
def complaint (tables : Tables) (p : Parser) : SyntaxError :=
  ⟨p.lookahead.span, p.source.position p.lookahead.span.start, p.lookahead.kind,
    tables.expected p.state⟩

/-- Recovering puts the token at hand on record, unless it has failed before. -/
theorem recover_record {p q : Parser} (h : p.recover tables = .ok q ∨ p.recover tables = .error q) :
    q.errors = if p.repeated then p.errors else p.errors ++ [p.complaint tables] := by
  unfold Parser.recover at h
  cases hrepeated : p.repeated with
  | false =>
      have hnew : (!p.shifted && p.lastError == some p.lookahead.span.start) = false := hrepeated
      simp only [hnew, Bool.false_and, Bool.false_eq_true, if_false] at h
      split at h
      all_goals
        obtain rfl : _ = q := by simpa using h
        rfl
  | true =>
      have hagain : (!p.shifted && p.lastError == some p.lookahead.span.start) = true := hrepeated
      simp only [hagain, Bool.true_and, if_true] at h
      split at h
      · obtain rfl : _ = q := by simpa using h
        rfl
      · split at h
        all_goals
          obtain rfl : _ = q := by simpa using h
          exact advance_errors _

/-- The first error puts the token at hand on record. -/
theorem recover_first {p q : Parser} (h : p.recover tables = .ok q ∨ p.recover tables = .error q)
    (hlast : p.lastError = none) : q.errors = p.errors ++ [p.complaint tables] := by
  have hnew : p.repeated = false := by
    rw [repeated, hlast]
    simp
  rw [recover_record h, hnew]
  rfl

/-- Errors are only ever added. -/
theorem recover_extends {p q : Parser} (h : p.recover tables = .ok q ∨ p.recover tables = .error q) :
    p.errors <+: q.errors := by
  rw [recover_record h]
  split
  · exact List.prefix_refl _
  · exact List.prefix_append _ _

theorem step_prefix {first : List SyntaxError} {p : Parser} (h : first <+: p.errors) :
    (p.step tables).LeadsTo (fun q => first <+: q.errors) (fun parsed => first <+: parsed.errors) := by
  refine step_leadsTo (fun state _ => ?_) (fun index rule q _ _ hq => ?_) (fun _ _ _ => h)
    (fun _ => h) (fun q _ hq => ?_) (fun q _ hq => ?_)
  · rwa [(p.shift_errors state).1]
  · rwa [(reduce_errors hq).1]
  · exact h.trans (recover_extends (.inl hq))
  · exact h.trans (recover_extends (.inr hq))

theorem run_prefix {fuel : Nat} {p : Parser} {parsed : Parsed}
    (h : p.run tables fuel = some parsed) : p.errors <+: parsed.errors :=
  run_leadsTo (fun q => p.errors <+: q.errors) (fun parsed => p.errors <+: parsed.errors)
    (fun _ => step_prefix) (List.prefix_refl _) h

/-- A run goes through the steps that are taken. -/
theorem Steps.exists_run {count : Nat} {p q : Parser} (h : p.Steps tables count q) {fuel : Nat}
    {parsed : Parsed} (hrun : p.run tables fuel = some parsed) :
    ∃ left, q.run tables left = some parsed := by
  induction h generalizing fuel with
  | refl p => exact ⟨fuel, hrun⟩
  | step hstep _ ih =>
      cases fuel with
      | zero => cases hrun
      | succ fuel =>
          rw [Parser.run, hstep] at hrun
          exact ih hrun

/-- The same parser with other tokens behind the one at hand. -/
def before (p : Parser) (rest : List Token) : Parser := { p with rest }

theorem action_before (p : Parser) (rest : List Token) :
    tables.action (p.before rest).state (p.before rest).lookahead.kind
      = tables.action p.state p.lookahead.kind := rfl

/-- A parser that has read the first tokens of a text and has met no error,
whatever comes behind the token at hand. -/
structure Unfailing (D : Driver tables) (source : Source) (read : List Token) (p : Parser) :
    Prop where
  stacked : ∃ symbols, Stacked D p.stack symbols read
  steps : ∀ rest, ∃ count,
    (start {} source (read ++ p.lookahead :: rest)).Steps tables count (p.before rest)
  errors : p.errors = []
  lastError : p.lastError = none
  options : p.options.interactive = false
  source : p.source = source

namespace Unfailing

variable {D : Driver tables} {source : Source} {read : List Token} {p : Parser}

theorem start (token : Token) (rest : List Token) :
    Unfailing D source [] (Parser.start {} source (token :: rest)) :=
  ⟨⟨[], .nil⟩, fun _ => ⟨0, .refl _⟩, rfl, rfl, rfl, rfl⟩

theorem shift (h : p.Unfailing D source read) {state : StateId}
    (haction : tables.action p.state p.lookahead.kind = some (.shift state))
    (hend : ∃ token ∈ p.lookahead :: p.rest, token.kind = .endOfInput) :
    (p.shift state).Unfailing D source (read ++ [p.lookahead]) ∧
      p.rest = (p.shift state).lookahead :: (p.shift state).rest ∧
      ∃ token ∈ (p.shift state).lookahead :: (p.shift state).rest, token.kind = .endOfInput := by
  obtain ⟨symbols, hstacked⟩ := h.stacked
  obtain ⟨-, hrest, hend', hnext⟩ := stacked_shift hstacked haction hend
  obtain ⟨herrors, hlast, hoptions⟩ := p.shift_errors state
  refine ⟨⟨⟨_, hnext⟩, fun rest => ?_, herrors.trans h.errors, hlast.trans h.lastError,
    hoptions ▸ h.options, ?_⟩, hrest, hend'⟩
  · obtain ⟨count, hsteps⟩ := h.steps ((p.shift state).lookahead :: rest)
    have hstep : (p.before ((p.shift state).lookahead :: rest)).step tables
        = .next ((p.shift state).before rest) := by
      obtain ⟨next, more, hp⟩ : ∃ next more, p.rest = next :: more := ⟨_, _, hrest⟩
      unfold Parser.step
      rw [action_before, haction]
      simp only [before, Parser.shift, Parser.advance, hp]
    rw [List.append_assoc]
    exact ⟨count + 1, hsteps.trans (.step hstep (.refl _))⟩
  · rw [← h.source]
    simp only [Parser.shift, Parser.advance]
    split <;> rfl

theorem reduce (h : p.Unfailing D source read) {index : Nat} {rule : Rule} {q : Parser}
    (haction : tables.action p.state p.lookahead.kind = some (.reduce index))
    (hrule : rules[index]? = some rule) (hq : p.reduce tables rule = some q) :
    q.Unfailing D source read ∧ q.lookahead = p.lookahead ∧ q.rest = p.rest := by
  obtain ⟨symbols, hstacked⟩ := h.stacked
  obtain ⟨symbols', hnext, hlook, hrest⟩ := stacked_reduce hstacked haction hrule hq
  obtain ⟨m, target, hbuild, hgoto, rfl⟩ := reduce_eq hq
  refine ⟨⟨⟨_, hnext⟩, fun rest => ?_, h.errors, h.lastError, h.options, h.source⟩, hlook, hrest⟩
  obtain ⟨count, hsteps⟩ := h.steps rest
  refine ⟨count + 1, hsteps.trans (.step ?_ (.refl _))⟩
  unfold Parser.step
  rw [action_before, haction]
  simp only [before, hrule, Option.bind_some, Parser.reduce, hbuild, hgoto, Option.bind_eq_bind,
    Option.pure_def]

/-- Behind every error-free stretch the parser has either read a program or
comes to a token that has no action. -/
theorem run (h : p.Unfailing D source read)
    (hend : ∃ token ∈ p.lookahead :: p.rest, token.kind = .endOfInput) {fuel : Nat}
    {parsed : Parsed} (hrun : p.run tables fuel = some parsed) :
    (∃ (d : Phrase (.nonTerminal .program)) (after : Token) (more : List Token),
      after.kind = .endOfInput ∧ read ++ p.lookahead :: p.rest = d.tokens ++ after :: more) ∨
    ∃ (front : List Token) (q : Parser), q.Unfailing D source front ∧
      read ++ p.lookahead :: p.rest = front ++ q.lookahead :: q.rest ∧
      tables.action q.state q.lookahead.kind = none := by
  induction fuel generalizing p read with
  | zero => cases hrun
  | succ fuel ih =>
      rw [Parser.run] at hrun
      cases haction : tables.action p.state p.lookahead.kind with
      | none => exact .inr ⟨read, p, h, rfl, haction⟩
      | some action =>
          rw [Parser.step, haction] at hrun
          cases action with
          | shift state =>
              obtain ⟨hnext, hrest, hend'⟩ := h.shift haction hend
              have := ih hnext hend' hrun
              rwa [List.append_assoc, ← hrest] at this
          | reduce index =>
              cases hreduce : rules[index]?.bind (p.reduce tables) with
              | none =>
                  simp only [hreduce] at hrun
                  cases hrun
              | some q =>
                  simp only [hreduce] at hrun
                  obtain ⟨rule, hrule, hq⟩ := Option.bind_eq_some_iff.1 hreduce
                  obtain ⟨hnext, hlook, hrest⟩ := h.reduce haction hrule hq
                  have := ih hnext (by rwa [hlook, hrest]) hrun
                  rwa [hlook, hrest] at this
          | accept =>
              obtain ⟨symbols, hstacked⟩ := h.stacked
              obtain ⟨hkind, d, rfl⟩ := stacked_accept hstacked haction
              exact .inl ⟨d, p.lookahead, p.rest, hkind, rfl⟩

/-- Where the token at hand has no action it is the first error, whatever
comes behind it. -/
theorem head_errors (h : p.Unfailing D source read)
    (haction : tables.action p.state p.lookahead.kind = none) {rest : List Token} {fuel : Nat}
    {parsed : Parsed}
    (hrun : (Parser.start {} source (read ++ p.lookahead :: rest)).run tables fuel = some parsed) :
    parsed.errors.head? = some (p.complaint tables) := by
  obtain ⟨count, hsteps⟩ := h.steps rest
  obtain ⟨left, hleft⟩ := hsteps.exists_run hrun
  have hprefix : [p.complaint tables] <+: parsed.errors := by
    cases left with
    | zero => cases hleft
    | succ left =>
        have hsupply : (p.before rest).canSupplySemicolon tables = false := by
          rw [Parser.canSupplySemicolon, show (p.before rest).options = p.options from rfl, h.options]
          rfl
        rw [Parser.run, Parser.step, action_before, haction] at hleft
        simp only [hsupply, Bool.false_eq_true, if_false] at hleft
        have herrors : ∀ {q}, (p.before rest).recover tables = .ok q ∨
            (p.before rest).recover tables = .error q → q.errors = [p.complaint tables] := by
          intro q hq
          have := recover_first hq h.lastError
          rwa [show (p.before rest).errors = [] from h.errors] at this
        cases hrecover : (p.before rest).recover tables with
        | ok q =>
            simp only [hrecover] at hleft
            exact herrors (.inl hrecover) ▸ run_prefix hleft
        | error q =>
            simp only [hrecover] at hleft
            obtain rfl := Option.some.inj hleft
            exact (herrors (.inr hrecover)) ▸ List.prefix_refl _
  obtain ⟨more, hmore⟩ := hprefix
  rw [← hmore]
  rfl

end Unfailing

end Parser

/-- Whatever ends with the end of input is parsed within the fuel. -/
theorem run_parseTokens (options : ParseOptions) (source : Source) {tokens : List Token}
    (h : Ended tokens) : (Parser.start options source tokens).run tables (parseFuel tokens.length)
      = some (parseTokens options source tokens) := by
  obtain ⟨parsed, hrun, -⟩ := Parser.sound_run (Parser.sound_start (D := driver) options source h)
    (Parser.cost_start options source tokens)
  rw [parseTokens, hrun]
  rfl

/-- And it comes to something good. -/
theorem parseTokens_good (options : ParseOptions) (source : Source) {tokens : List Token}
    (h : Ended tokens) : (parseTokens options source tokens).Good := by
  obtain ⟨parsed, hrun, hgood⟩ := Parser.sound_run (Parser.sound_start (D := driver) options source h)
    (Parser.cost_start options source tokens)
  rw [parseTokens, hrun]
  exact hgood

/-- The first syntax error is found at the earliest token. In tokens that are
no program the first error on record is that of the token with which no
program goes on, while the tokens in front of it begin one; and it is the
same error whatever comes behind that token. -/
theorem first_error (source : Source) (before : List Token)
    (hbefore : ∀ token ∈ before, token.kind ≠ .endOfInput) (eof : Token)
    (heof : eof.kind = .endOfInput) (hnot : before.map (·.kind) ∉ grammar.language) :
    ∃ front token back error, before ++ [eof] = front ++ token :: back ∧
      Viable (front.map (·.kind)) ∧ ¬ Viable ((front ++ [token]).map (·.kind)) ∧
      (parseTokens {} source (before ++ [eof])).errors.head? = some error ∧
      error.place = token.span ∧ error.position = source.position token.span.start ∧
      error.found = token.kind ∧
      ∀ others, Ended (token :: others) →
        (parseTokens {} source (front ++ token :: others)).errors.head? = some error := by
  have hended : Ended (before ++ [eof]) := ⟨eof, by simp, heof⟩
  obtain ⟨first, rest, htokens⟩ : ∃ first rest, before ++ [eof] = first :: rest := by
    cases before <;> exact ⟨_, _, rfl⟩
  have hend : ∃ token ∈ first :: rest, token.kind = .endOfInput :=
    ⟨eof, htokens ▸ by simp, heof⟩
  have hrun := run_parseTokens {} source hended
  rw [htokens] at hrun hended ⊢
  rcases (Parser.Unfailing.start (D := driver) first rest).run hend hrun with
    ⟨d, after, more, hafter, hread⟩ | ⟨front, q, hq, hread, haction⟩
  · -- the parser has accepted, so the tokens are a program
    refine absurd (mem_language.2 ⟨d, ?_⟩) hnot
    have hcut : before ++ eof :: [] = d.tokens ++ after :: more := htokens.trans hread
    exact (cut_unique hcut hbefore (d.kind_ne_end (fun e => by cases e)) heof hafter).1.symm
  · have hsplit : first :: rest = front ++ q.lookahead :: q.rest := hread
    have hothers : ∀ others, Ended (q.lookahead :: others) →
        (parseTokens {} source (front ++ q.lookahead :: others)).errors.head?
          = some (q.complaint tables) := by
      intro others hothers
      exact hq.head_errors haction (run_parseTokens {} source (hothers.after front))
    obtain ⟨symbols, hstacked⟩ := hq.stacked
    refine ⟨front, q.lookahead, q.rest, q.complaint tables, hsplit, hstacked.viable, ?_, ?_, rfl,
      by rw [← hq.source]; rfl, rfl, hothers⟩
    · intro hviable
      obtain ⟨others, root, hothersEnded, hparse⟩ := hviable.exists_parse source
      have herror := hothers others hothersEnded
      rw [hparse] at herror
      cases herror
    · rw [hsplit] at hended ⊢
      exact hothers _ hended.behind

/-- A closing parenthesis by itself. -/
def loneParen : Token := ⟨.rightParen, ")", ⟨0, 1⟩, ⟨1, 1⟩⟩

/-- The end of input behind it. -/
def loneParenEnd : Token := ⟨.endOfInput, "", ⟨1, 0⟩, ⟨1, 2⟩⟩

/-- No program is a closing parenthesis, so there is a first error. -/
theorem first_error_loneParen :
    [loneParen].map (·.kind) ∉ grammar.language ∧
      ∃ front token back error, [loneParen] ++ [loneParenEnd] = front ++ token :: back ∧
        Viable (front.map (·.kind)) ∧ ¬ Viable ((front ++ [token]).map (·.kind)) ∧
        (parseTokens {} (.ofText ")") ([loneParen] ++ [loneParenEnd])).errors.head? = some error ∧
        error.place = token.span ∧ error.found = token.kind := by
  have hnot : [loneParen].map (·.kind) ∉ grammar.language := by
    intro h
    obtain ⟨d, hd⟩ := mem_language.1 h
    have hadmits := d.admits.mono (starts_le .program)
    rw [hd] at hadmits
    have hin : (startBound.of .program).first.contains loneParen.kind = true := hadmits
    exact absurd hin (by decide)
  obtain ⟨front, token, back, error, hsplit, hfront, hnext, herror, hplace, -, hfound, -⟩ :=
    first_error (.ofText ")") [loneParen] (by decide) loneParenEnd rfl hnot
  exact ⟨hnot, front, token, back, error, hsplit, hfront, hnext, herror, hplace, hfound⟩

end BoardScript
