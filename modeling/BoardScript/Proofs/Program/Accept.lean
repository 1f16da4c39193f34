/-
What the parser accepts is derivable. While it meets no error, the symbols
on the stack stand for phrases, and those together are the tokens read so
far (`Stacked`). An item of the state on top tells what the topmost symbols
are: as much of its rule as has been read. So a rule read to its end finds
its parts on the stack, and when the start rule is, the one symbol on the
stack stands for all that was read.

A run ends as its steps make it end (`run_leadsTo`). So an error that was met
is recorded, and stays so (`run_errors`). A run without one accounts for its
tokens at every step (`Accounts`), and so it has read a program (`run_accepts`).
That may be all tokens, or those with the one semicolon that interactive input
may leave out (`closed`).
-/
import BoardScript.Proofs.Program.Driver

namespace BoardScript

open Grammar Lalr

variable {tables : Tables}

/-- The symbols on the stack, each leading from the state below it to its
own. -/
inductive Path (D : Driver tables) : List StackEntry → List Symbol → Prop
  | nil : Path D [] []
  | cons {entry : StackEntry} {stack : List StackEntry} {symbol : Symbol} {symbols : List Symbol}
      (below : Path D stack symbols)
      (ht : D.target (Parser.stateOf stack) symbol = some entry.state) :
      Path D (entry :: stack) (symbol :: symbols)

/-- The symbols on the stack, and the tokens of their phrases. -/
inductive Stacked (D : Driver tables) : List StackEntry → List Symbol → List Token → Prop
  | nil : Stacked D [] [] []
  | cons {entry : StackEntry} {stack : List StackEntry} {symbol : Symbol} {symbols : List Symbol}
      {tokens : List Token} (below : Stacked D stack symbols tokens)
      (ht : D.target (Parser.stateOf stack) symbol = some entry.state) (d : Phrase symbol) :
      Stacked D (entry :: stack) (symbol :: symbols) (tokens ++ d.tokens)

namespace Path

variable {D : Driver tables} {stack : List StackEntry} {symbols : List Symbol}

theorem state (h : Path D stack symbols) : D.state (Parser.stateOf stack) := by
  induction h with
  | nil => exact D.start.1
  | cons _ ht ih => exact (D.moved ih ht).1

/-- An item tells what is on top of the stack: the symbols of its rule up to
the dot. Below them is a state that has the rule with nothing read. -/
theorem item (h : Path D stack symbols) {index dot : Nat} {rule : Rule}
    (hrule : rules[index]? = some rule) {following : KindSet}
    (hmem : D.items (Parser.stateOf stack) ⟨index, dot⟩ following) :
    symbols.take dot = (rule.production.body.take dot).reverse ∧
      ∃ f, D.items (Parser.stateOf (stack.drop dot)) ⟨index, 0⟩ f := by
  induction dot generalizing stack symbols following with
  | zero => exact ⟨by simp, following, hmem⟩
  | succ dot ih =>
      cases h with
      | nil => exact absurd (D.unread hmem) (Nat.succ_ne_zero _)
      | @cons entry stack symbol symbols below ht =>
          obtain ⟨-, -, horigin⟩ := D.moved below.state ht
          obtain ⟨⟨f, hf⟩, rest, hrest⟩ := (horigin hmem).2 rfl
          obtain ⟨htake, hdrop⟩ := ih below hf
          rw [remaining_eq (tabulated_production hrule)] at hrest
          have hget : rule.production.body[dot]? = some symbol := by
            rw [← List.head?_drop, hrest]
            rfl
          refine ⟨?_, hdrop⟩
          rw [List.take_succ_cons, htake, List.take_add_one, hget]
          simp

/-- The body of a rule that is read to its end is on top of the stack, above
a state that has the rule with nothing read. -/
theorem finished (h : Path D stack symbols) {kind : TokenKind} {index : Nat}
    (haction : tables.action (Parser.stateOf stack) kind = some (.reduce index)) {rule : Rule}
    (hrule : rules[index]? = some rule) :
    symbols.take rule.production.body.length = rule.production.body.reverse ∧
      ∃ following, D.items (Parser.stateOf (stack.drop rule.production.body.length)) ⟨index, 0⟩
        following := by
  obtain ⟨-, rule', following, hrule', hmem, -⟩ := D.finished h.state haction
  obtain rfl := Option.some.inj (hrule.symm.trans hrule')
  obtain ⟨htake, hbottom⟩ := h.item hrule hmem
  rw [List.take_length] at htake
  exact ⟨htake, hbottom⟩

end Path

namespace Stacked

variable {D : Driver tables} {stack : List StackEntry} {symbols : List Symbol}
  {tokens : List Token}

theorem path (h : Stacked D stack symbols tokens) : Path D stack symbols := by
  induction h with
  | nil => exact .nil
  | cons _ ht _ ih => exact .cons ih ht

theorem state (h : Stacked D stack symbols tokens) : D.state (Parser.stateOf stack) :=
  h.path.state

/-- From the top of the stack down, the symbols stand for phrases that go in
front of those found so far. -/
theorem split_onto (h : Stacked D stack symbols tokens) {top later body : List Symbol}
    (htop : symbols.take top.length = top) (hbody : body = top.reverse ++ later)
    (ds : Phrases later) :
    ∃ (all : Phrases body) (before : List Token), tokens ++ ds.tokens = before ++ all.tokens ∧
      Stacked D (stack.drop top.length) (symbols.drop top.length) before := by
  induction top generalizing stack symbols tokens later with
  | nil =>
      subst hbody
      exact ⟨ds, tokens, rfl, h⟩
  | cons symbol top ih =>
      cases h with
      | nil => simp at htop
      | @cons entry stack symbol' symbols tokens below ht d =>
          rw [List.length_cons, List.take_succ_cons] at htop
          obtain ⟨rfl, hrest⟩ := List.cons.inj htop
          obtain ⟨all, before, htokens, hbelow⟩ := ih below hrest (by simpa using hbody) (.cons d ds)
          exact ⟨all, before, by rw [List.append_assoc]; exact htokens, hbelow⟩

/-- The symbols on top of the stack stand for phrases. -/
theorem split (h : Stacked D stack symbols tokens) {body : List Symbol}
    (htake : symbols.take body.length = body.reverse) :
    ∃ (ds : Phrases body) (before : List Token), tokens = before ++ ds.tokens ∧
      Stacked D (stack.drop body.length) (symbols.drop body.length) before := by
  rw [← List.length_reverse] at htake
  have hbody : body = body.reverse.reverse ++ [] := by simp
  obtain ⟨ds, before, htokens, hbelow⟩ := h.split_onto htake hbody .nil
  rw [List.length_reverse] at hbelow
  exact ⟨ds, before, by simpa [Phrases.tokens] using htokens, hbelow⟩

/-- The body of a rule that is read to its end is on top of the stack, above
a state that has the rule with nothing read. -/
theorem finished (h : Stacked D stack symbols tokens) {kind : TokenKind} {index : Nat}
    (haction : tables.action (Parser.stateOf stack) kind = some (.reduce index)) {rule : Rule}
    (hrule : rules[index]? = some rule) :
    ∃ (ds : Phrases rule.production.body) (before : List Token), tokens = before ++ ds.tokens ∧
      Stacked D (stack.drop rule.production.body.length)
        (symbols.drop rule.production.body.length) before ∧
      ∃ following, D.items (Parser.stateOf (stack.drop rule.production.body.length)) ⟨index, 0⟩
        following := by
  obtain ⟨htake, hbottom⟩ := h.path.finished haction hrule
  obtain ⟨ds, before, htokens, hbelow⟩ := h.split htake
  exact ⟨ds, before, htokens, hbelow, hbottom⟩

/-- A program on top of a state where nothing has been read of the start
rule is all there is: only the state at the bottom is like that. -/
theorem program (h : Stacked D stack symbols tokens)
    (htake : symbols.take 1 = [.nonTerminal .program]) {following : KindSet}
    (hbottom : D.items (Parser.stateOf (stack.drop 1)) ⟨0, 0⟩ following) :
    ∃ d : Phrase (.nonTerminal .program), d.tokens = tokens := by
  cases h with
  | nil => cases htake
  | @cons entry stack symbol symbols tokens below ht d =>
      obtain rfl : symbol = .nonTerminal .program := (List.cons.inj htake).1
      cases below with
      | nil => exact ⟨d, (List.nil_append _).symm⟩
      | cons below' ht' _ => exact absurd rfl ((D.moved below'.state ht').2.2 hbottom).1

end Stacked

-- ============================================================ a last semicolon

/-- The semicolon of no width that may be supplied in front of a token. -/
def Token.closing (token : Token) : Token :=
  ⟨.semicolon, "", .before token.span.start, token.position⟩

/-- Tokens with a semicolon supplied in front of the end of input. -/
def closed : List Token → List Token
  | [] => []
  | token :: rest =>
      if token.kind = .endOfInput then token.closing :: token :: rest else token :: closed rest

theorem closed_append {front : List Token} (hfront : ∀ token ∈ front, token.kind ≠ .endOfInput)
    {eof : Token} (heof : eof.kind = .endOfInput) (rest : List Token) :
    closed (front ++ eof :: rest) = front ++ eof.closing :: eof :: rest := by
  induction front with
  | nil => exact if_pos heof
  | cons token front ih =>
      obtain ⟨hkind, hothers⟩ := List.forall_mem_cons.1 hfront
      rw [List.cons_append, closed, if_neg hkind, ih hothers]
      rfl

-- ================================================================= errors

namespace Parser

/-- Whether a semicolon may still be supplied. -/
def mayClose (p : Parser) : Bool := p.options.interactive && !p.supplied

theorem advance_errors (p : Parser) : p.advance.errors = p.errors := by
  unfold Parser.advance
  split <;> rfl

/-- Recovery records the error, unless it is the one last recorded. -/
theorem recover_errors {p q : Parser} (h : p.recover tables = .ok q ∨ p.recover tables = .error q)
    (hp : p.errors ≠ [] ∨ p.lastError = none) : q.errors ≠ [] := by
  unfold Parser.recover at h
  cases hrep : (!p.shifted && p.lastError == some p.lookahead.span.start) with
  | false =>
      simp only [hrep, Bool.false_and, Bool.false_eq_true, if_false] at h
      split at h
      · obtain rfl : _ = q := by simpa using h
        simp [Parser.recordError]
      · obtain rfl : _ = q := by simpa using h
        simp [Parser.recordError]
  | true =>
      -- the same error again: an earlier one is on record
      have hold : p.errors ≠ [] := by
        rcases hp with hp | hp
        · exact hp
        · rw [hp] at hrep
          simp at hrep
      simp only [hrep, Bool.true_and, if_true] at h
      split at h
      · obtain rfl : _ = q := by simpa using h
        exact hold
      · split at h
        · obtain rfl : _ = q := by simpa using h
          rw [advance_errors]
          exact hold
        · obtain rfl : _ = q := by simpa using h
          show Parser.errors (Parser.advance _) ≠ []
          rw [advance_errors]
          exact hold

/-- What a rule leaves: its body on top of the stack is replaced by its head. -/
theorem reduce_eq {p q : Parser} {rule : Rule} (h : p.reduce tables rule = some q) :
    ∃ m target,
      rule.build
        ((Span.coverAll ((p.stack.take rule.production.body.length).reverse.filterMap
          (·.span))).getD (.before p.lookahead.span.start))
        ((p.stack.take rule.production.body.length).reverse.map (·.meaning)) = some m ∧
      tables.goto (stateOf (p.stack.drop rule.production.body.length)) rule.production.head
        = some target ∧
      q = { p with stack := ⟨target, m, Span.coverAll
        ((p.stack.take rule.production.body.length).reverse.filterMap (·.span))⟩ ::
          p.stack.drop rule.production.body.length } := by
  unfold Parser.reduce at h
  simp only [Option.bind_eq_bind, Option.bind_eq_some_iff, Option.pure_def, Option.some.injEq] at h
  obtain ⟨m, hbuild, target, hgoto, rfl⟩ := h
  exact ⟨m, target, hbuild, hgoto, rfl⟩

theorem reduce_errors {p q : Parser} {rule : Rule} (h : p.reduce tables rule = some q) :
    q.errors = p.errors ∧ q.lastError = p.lastError ∧ q.options = p.options := by
  obtain ⟨m, target, -, -, rfl⟩ := reduce_eq h
  exact ⟨rfl, rfl, rfl⟩

theorem shift_errors (p : Parser) (state : StateId) :
    (p.shift state).errors = p.errors ∧ (p.shift state).lastError = p.lastError ∧
      (p.shift state).options = p.options := by
  simp only [Parser.shift, Parser.advance]
  cases p.rest <;> exact ⟨rfl, rfl, rfl⟩

theorem reduce_mayClose {p q : Parser} {rule : Rule} (h : p.reduce tables rule = some q) :
    q.mayClose = p.mayClose := by
  obtain ⟨m, target, -, -, rfl⟩ := reduce_eq h
  rfl

theorem shift_mayClose (p : Parser) (state : StateId) : (p.shift state).mayClose = p.mayClose := by
  simp only [Parser.shift, Parser.advance]
  cases p.rest <;> rfl

/-- Where a semicolon is supplied. -/
theorem canSupplySemicolon_iff {p : Parser} : p.canSupplySemicolon tables = true ↔
    p.mayClose = true ∧ p.lookahead.kind = .endOfInput ∧
      (tables.action p.state .semicolon).isSome = true := by
  simp only [canSupplySemicolon, mayClose, Bool.and_eq_true, beq_iff_eq, and_assoc]

/-- What a step can be. -/
theorem step_cases (p : Parser) :
    (∃ state, tables.action p.state p.lookahead.kind = some (.shift state) ∧
      p.step tables = .next (p.shift state)) ∨
    (∃ index, tables.action p.state p.lookahead.kind = some (.reduce index) ∧
      (p.step tables = .stuck ∨ ∃ rule q, rules[index]? = some rule ∧
        p.reduce tables rule = some q ∧ p.step tables = .next q)) ∨
    (tables.action p.state p.lookahead.kind = some .accept ∧
      (p.step tables = .stuck ∨ ∃ root, p.step tables = .done ⟨some root, p.errors⟩)) ∨
    (tables.action p.state p.lookahead.kind = none ∧ p.canSupplySemicolon tables = true ∧
      p.step tables = .next p.supplySemicolon) ∨
    (tables.action p.state p.lookahead.kind = none ∧ p.canSupplySemicolon tables = false ∧
      ∃ q, (p.recover tables = .ok q ∧ p.step tables = .next q) ∨
        (p.recover tables = .error q ∧ p.step tables = .done ⟨none, q.errors⟩)) := by
  unfold Parser.step
  cases haction : tables.action p.state p.lookahead.kind with
  | some action =>
      cases action with
      | shift state => exact .inl ⟨state, rfl, rfl⟩
      | reduce index =>
          refine .inr (.inl ⟨index, rfl, ?_⟩)
          cases hreduce : rules[index]?.bind (p.reduce tables) with
          | none => exact .inl (by simp only [hreduce])
          | some q =>
              obtain ⟨rule, hrule, hq⟩ := Option.bind_eq_some_iff.1 hreduce
              exact .inr ⟨rule, q, hrule, hq, by simp only [hreduce]⟩
      | accept =>
          refine .inr (.inr (.inl ⟨rfl, ?_⟩))
          dsimp only
          split
          · exact .inr ⟨_, rfl⟩
          · exact .inl rfl
  | none =>
      refine .inr (.inr (.inr ?_))
      cases hsupply : p.canSupplySemicolon tables with
      | true => exact .inl ⟨rfl, rfl, by rw [if_pos rfl]⟩
      | false =>
          refine .inr ⟨rfl, rfl, ?_⟩
          simp only [Bool.false_eq_true, if_false]
          cases hrecover : p.recover tables with
          | ok q => exact ⟨q, .inl ⟨rfl, rfl⟩⟩
          | error q => exact ⟨q, .inr ⟨rfl, rfl⟩⟩

/-- A program that is accepted is on top of the stack. -/
theorem stack_of_accept {p : Parser}
    (haction : tables.action p.state p.lookahead.kind = some .accept) {root : Node}
    {errors : List SyntaxError} (hstep : p.step tables = .done ⟨some root, errors⟩) :
    ∃ state span stack, p.stack = ⟨state, .node root, span⟩ :: stack := by
  unfold Parser.step at hstep
  rw [haction] at hstep
  dsimp only at hstep
  split at hstep
  · rename_i state node span stack hstack
    cases hstep
    exact ⟨state, span, stack, hstack⟩
  · cases hstep

end Parser

-- ================================================================== a run

/-- What a step leads to: a parser of which the one thing holds, or an end of
which the other does. A step that fails leads nowhere. -/
inductive ParseStep.LeadsTo (Kept : Parser → Prop) (Final : Parsed → Prop) : ParseStep → Prop
  | next {p : Parser} (h : Kept p) : LeadsTo Kept Final (.next p)
  | done {parsed : Parsed} (h : Final parsed) : LeadsTo Kept Final (.done parsed)
  | stuck : LeadsTo Kept Final .stuck

theorem ParseStep.LeadsTo.imp {Kept Kept' : Parser → Prop} {Final Final' : Parsed → Prop}
    {step : ParseStep} (hstep : step.LeadsTo Kept Final) (hkept : ∀ p, Kept p → Kept' p)
    (hfinal : ∀ parsed, Final parsed → Final' parsed) : step.LeadsTo Kept' Final' := by
  cases hstep with
  | next h => exact .next (hkept _ h)
  | done h => exact .done (hfinal _ h)
  | stuck => exact .stuck

namespace Parser

section

variable {p : Parser} {Kept : Parser → Prop} {Final : Parsed → Prop}

/-- Where a step leads, for each kind of step. -/
theorem step_leadsTo
    (hshift : ∀ state, tables.action p.state p.lookahead.kind = some (.shift state) →
      Kept (p.shift state))
    (hreduce : ∀ index rule q, tables.action p.state p.lookahead.kind = some (.reduce index) →
      rules[index]? = some rule → p.reduce tables rule = some q → Kept q)
    (haccept : ∀ root, tables.action p.state p.lookahead.kind = some .accept →
      p.step tables = .done ⟨some root, p.errors⟩ → Final ⟨some root, p.errors⟩)
    (hsupply : p.canSupplySemicolon tables = true → Kept p.supplySemicolon)
    (hrecover : ∀ q, tables.action p.state p.lookahead.kind = none →
      p.recover tables = .ok q → Kept q)
    (hfail : ∀ q, tables.action p.state p.lookahead.kind = none →
      p.recover tables = .error q → Final ⟨none, q.errors⟩) :
    (p.step tables).LeadsTo Kept Final := by
  rcases p.step_cases with ⟨state, haction, hstep⟩ |
    ⟨index, haction, hstep | ⟨rule, q, hrule, hq, hstep⟩⟩ |
    ⟨haction, hstep | ⟨root, hstep⟩⟩ | ⟨-, hcan, hstep⟩ |
    ⟨haction, -, q, ⟨hq, hstep⟩ | ⟨hq, hstep⟩⟩
  · exact hstep ▸ .next (hshift state haction)
  · exact hstep ▸ .stuck
  · exact hstep ▸ .next (hreduce index rule q haction hrule hq)
  · exact hstep ▸ .stuck
  · exact hstep ▸ .done (haccept root haction hstep)
  · exact hstep ▸ .next (hsupply hcan)
  · exact hstep ▸ .next (hrecover q haction hq)
  · exact hstep ▸ .done (hfail q haction hq)

variable (Kept Final) in
/-- What every step keeps leads a whole run to its end. -/
theorem run_leadsTo (hkeep : ∀ p, Kept p → (p.step tables).LeadsTo Kept Final) {fuel : Nat}
    (h : Kept p) {parsed : Parsed} (hrun : p.run tables fuel = some parsed) : Final parsed := by
  induction fuel generalizing p with
  | zero => cases hrun
  | succ fuel ih =>
      have hlead := hkeep p h
      rw [Parser.run] at hrun
      cases hstep : p.step tables with
      | next q =>
          rw [hstep] at hlead hrun
          cases hlead with
          | next h => exact ih h hrun
      | done parsed' =>
          rw [hstep] at hlead hrun
          cases hlead with
          | done h => exact Option.some.inj hrun ▸ h
      | stuck =>
          rw [hstep] at hrun
          cases hrun

end

/-- An error that was met stays on record. -/
theorem step_errors {p : Parser} (hp : p.errors ≠ []) :
    (p.step tables).LeadsTo (fun q => q.errors ≠ []) (fun parsed => parsed.errors ≠ []) := by
  refine step_leadsTo (fun state _ => ?_) (fun index rule q _ _ hq => ?_) (fun _ _ _ => hp)
    (fun _ => hp) (fun q _ hq => ?_) (fun q _ hq => ?_)
  · rwa [(p.shift_errors state).1]
  · rwa [(reduce_errors hq).1]
  · exact recover_errors (.inl hq) (.inl hp)
  · exact recover_errors (.inr hq) (.inl hp)

theorem run_errors {fuel : Nat} {p : Parser} {parsed : Parsed} (hp : p.errors ≠ [])
    (h : p.run tables fuel = some parsed) : parsed.errors ≠ [] :=
  run_leadsTo (fun q => q.errors ≠ []) (fun parsed => parsed.errors ≠ []) (fun _ => step_errors) hp h

/-- A parser of which something holds, unless it has met an error. -/
def KeptClean (Kept : Parser → Prop) (p : Parser) : Prop :=
  p.errors ≠ [] ∨ p.lastError = none ∧ Kept p

/-- An end without an error at a program of which something holds. -/
def FinalClean (Final : Node → Prop) (parsed : Parsed) : Prop :=
  parsed.errors ≠ [] ∨ ∀ root, parsed.program = some root → Final root

/-- Where a step leads that meets no error. -/
theorem step_leadsTo_clean {p : Parser} {Kept : Parser → Prop} {Final : Node → Prop}
    (hclean : p.lastError = none)
    (hshift : ∀ state, tables.action p.state p.lookahead.kind = some (.shift state) →
      Kept (p.shift state))
    (hreduce : ∀ index rule q, tables.action p.state p.lookahead.kind = some (.reduce index) →
      rules[index]? = some rule → p.reduce tables rule = some q → Kept q)
    (haccept : ∀ root, tables.action p.state p.lookahead.kind = some .accept →
      p.step tables = .done ⟨some root, p.errors⟩ → Final root)
    (hsupply : p.canSupplySemicolon tables = true → Kept p.supplySemicolon) :
    (p.step tables).LeadsTo (KeptClean Kept) (FinalClean Final) := by
  refine step_leadsTo (fun state haction => .inr ⟨?_, hshift state haction⟩)
    (fun index rule q haction hrule hq => .inr ⟨?_, hreduce index rule q haction hrule hq⟩)
    (fun root haction hstep => .inr ?_) (fun hcan => .inr ⟨hclean, hsupply hcan⟩)
    (fun q _ hq => .inl (recover_errors (.inl hq) (.inr hclean)))
    (fun q _ hq => .inl (recover_errors (.inr hq) (.inr hclean)))
  · exact (p.shift_errors state).2.1.trans hclean
  · exact (reduce_errors hq).2.1.trans hclean
  · rintro _ ⟨⟩
    exact haccept root haction hstep

/-- What is kept where a token is read, a rule is used or a semicolon is
supplied leads a run to its end, if that is without an error. -/
theorem run_clean_leadsTo (Kept : Parser → Prop) (Final : Node → Prop)
    (hshift : ∀ p state, Kept p →
      tables.action p.state p.lookahead.kind = some (.shift state) → Kept (p.shift state))
    (hreduce : ∀ p index rule q, Kept p →
      tables.action p.state p.lookahead.kind = some (.reduce index) →
      rules[index]? = some rule → p.reduce tables rule = some q → Kept q)
    (haccept : ∀ p root, Kept p → tables.action p.state p.lookahead.kind = some .accept →
      p.step tables = .done ⟨some root, p.errors⟩ → Final root)
    (hsupply : ∀ p, Kept p → p.canSupplySemicolon tables = true → Kept p.supplySemicolon)
    {p : Parser} (h : Kept p) (hclean : p.lastError = none) {fuel : Nat} {root : Node}
    (hrun : p.run tables fuel = some ⟨some root, []⟩) : Final root := by
  have hkeep (p : Parser) (hp : KeptClean Kept p) :
      (p.step tables).LeadsTo (KeptClean Kept) (FinalClean Final) := by
    rcases hp with hp | ⟨hclean, hp⟩
    · exact (step_errors hp).imp (fun _ => .inl) fun _ => .inl
    · exact step_leadsTo_clean hclean (hshift p · hp) (hreduce p · · · hp) (haccept p · hp)
        (hsupply p hp)
  have hfinal := run_leadsTo _ _ hkeep (.inr ⟨hclean, h⟩) hrun
  exact hfinal.resolve_left (absurd rfl) root rfl

-- ============================================================= acceptance

/-- Reading a token puts a phrase on the stack. The end of input is not
read. -/
theorem stacked_shift {D : Driver tables} {p : Parser} {symbols : List Symbol}
    {read : List Token} (hp : Stacked D p.stack symbols read) {state : StateId}
    (haction : tables.action p.state p.lookahead.kind = some (.shift state))
    (hend : ∃ token ∈ p.lookahead :: p.rest, token.kind = .endOfInput) :
    p.lookahead.kind ≠ .endOfInput ∧ p.rest = (p.shift state).lookahead :: (p.shift state).rest ∧
      (∃ token ∈ (p.shift state).lookahead :: (p.shift state).rest, token.kind = .endOfInput) ∧
      Stacked D (p.shift state).stack (.terminal p.lookahead.kind :: symbols)
        (read ++ [p.lookahead]) := by
  obtain ⟨ht, hkind⟩ := D.shifted hp.state haction
  obtain ⟨token, hmem, he⟩ := hend
  have hrest : token ∈ p.rest :=
    (List.mem_cons.1 hmem).resolve_left fun e => hkind (e ▸ he)
  obtain ⟨next, rest, hnext⟩ := List.exists_cons_of_ne_nil (List.ne_nil_of_mem hrest)
  have hshift : p.rest = (p.shift state).lookahead :: (p.shift state).rest := by
    simp only [Parser.shift, Parser.advance, hnext]
  refine ⟨hkind, hshift, ⟨token, hshift ▸ hrest, he⟩, ?_⟩
  simp only [Parser.shift, Parser.advance, hnext]
  let entry : StackEntry := ⟨state, .token p.lookahead, some p.lookahead.span⟩
  have htarget : D.target (stateOf p.stack) (.terminal p.lookahead.kind) = some entry.state := ht
  exact .cons hp htarget (.token p.lookahead)

/-- A rule read to its end finds its parts on the stack. -/
theorem stacked_reduce {D : Driver tables} {p q : Parser} {symbols : List Symbol}
    {read : List Token} (hp : Stacked D p.stack symbols read) {index : Nat} {rule : Rule}
    (haction : tables.action p.state p.lookahead.kind = some (.reduce index))
    (hrule : rules[index]? = some rule) (hq : p.reduce tables rule = some q) :
    ∃ symbols', Stacked D q.stack symbols' read ∧ q.lookahead = p.lookahead ∧ q.rest = p.rest := by
  obtain ⟨ds, before, rfl, hbelow, -⟩ := hp.finished haction hrule
  obtain ⟨m, target, -, hgoto, rfl⟩ := reduce_eq hq
  rw [D.goto _ hbelow.state] at hgoto
  exact ⟨_, .cons hbelow hgoto (.node index hrule ds), rfl, rfl⟩

/-- When the start rule is read to its end, all that was read is a
program. -/
theorem stacked_accept {D : Driver tables} {p : Parser} {symbols : List Symbol}
    {read : List Token} (hp : Stacked D p.stack symbols read)
    (haction : tables.action p.state p.lookahead.kind = some .accept) :
    p.lookahead.kind = .endOfInput ∧ ∃ d : Phrase (.nonTerminal .program), d.tokens = read := by
  obtain ⟨hkind, f, hmem⟩ := D.accepted hp.state haction
  obtain ⟨htake, f', hbottom⟩ := hp.path.item rfl hmem
  exact ⟨hkind, hp.program htake hbottom⟩

/-- A parser accounts for the tokens given: those read are on the stack, and
with those to come they are all of them, or all with the semicolon that was
supplied where one may be. -/
structure Accounts (D : Driver tables) (given : List Token) (may : Bool) (read : List Token)
    (p : Parser) : Prop where
  stacked : ∃ symbols, Stacked D p.stack symbols read
  unended : ∀ token ∈ read, token.kind ≠ .endOfInput
  ended : ∃ token ∈ p.lookahead :: p.rest, token.kind = .endOfInput
  tokens : p.mayClose = may ∧ read ++ p.lookahead :: p.rest = given ∨
    p.mayClose = false ∧ may = true ∧ read ++ p.lookahead :: p.rest = closed given

namespace Accounts

theorem start (D : Driver tables) (options : ParseOptions) (source : Source) {given : List Token}
    (hended : ∃ token ∈ given, token.kind = .endOfInput) :
    Accounts D given options.interactive [] (Parser.start options source given) := by
  cases given with
  | nil =>
      obtain ⟨token, hmem, -⟩ := hended
      cases hmem
  | cons token rest =>
      exact ⟨⟨[], .nil⟩, List.forall_mem_nil _, hended, .inl ⟨Bool.and_true _, rfl⟩⟩

variable {D : Driver tables} {given read : List Token} {may : Bool} {p q : Parser}

theorem shift (h : Accounts D given may read p) {state : StateId}
    (haction : tables.action p.state p.lookahead.kind = some (.shift state)) :
    Accounts D given may (read ++ [p.lookahead]) (p.shift state) := by
  obtain ⟨symbols, hp⟩ := h.stacked
  obtain ⟨hkind, hrest, hend, hstacked⟩ := stacked_shift hp haction h.ended
  refine ⟨⟨_, hstacked⟩, ?_, hend, ?_⟩
  · exact List.forall_mem_append.2 ⟨h.unended, List.forall_mem_singleton.2 hkind⟩
  · rw [List.append_assoc, List.singleton_append, ← hrest, shift_mayClose]
    exact h.tokens

theorem reduce (h : Accounts D given may read p) {index : Nat} {rule : Rule}
    (haction : tables.action p.state p.lookahead.kind = some (.reduce index))
    (hrule : rules[index]? = some rule) (hq : p.reduce tables rule = some q) :
    Accounts D given may read q := by
  obtain ⟨symbols, hp⟩ := h.stacked
  obtain ⟨symbols', hstacked, hlook, hrest⟩ := stacked_reduce hp haction hrule hq
  refine ⟨⟨symbols', hstacked⟩, h.unended, ?_, ?_⟩
  · rw [hlook, hrest]
    exact h.ended
  · rw [hlook, hrest, reduce_mayClose hq]
    exact h.tokens

/-- No second semicolon is supplied. -/
theorem supply (h : Accounts D given may read p) (hcan : p.canSupplySemicolon tables = true) :
    Accounts D given may read p.supplySemicolon := by
  obtain ⟨hmay, hkind, -⟩ := canSupplySemicolon_iff.1 hcan
  refine ⟨h.stacked, h.unended, ⟨p.lookahead, List.mem_cons_of_mem _ List.mem_cons_self, hkind⟩,
    .inr ⟨by simp [mayClose, supplySemicolon], ?_⟩⟩
  rcases h.tokens with ⟨hsame, rfl⟩ | ⟨hnone, -⟩
  · exact ⟨hsame ▸ hmay, (closed_append h.unended hkind p.rest).symm⟩
  · rw [hmay] at hnone
    cases hnone

theorem accept (h : Accounts D given may read p)
    (haction : tables.action p.state p.lookahead.kind = some .accept) :
    ∃ (d : Phrase (.nonTerminal .program)) (after : Token) (more : List Token),
      after.kind = .endOfInput ∧ (given = d.tokens ++ after :: more ∨
        may = true ∧ closed given = d.tokens ++ after :: more) := by
  obtain ⟨symbols, hp⟩ := h.stacked
  obtain ⟨hkind, d, rfl⟩ := stacked_accept hp haction
  refine ⟨d, p.lookahead, p.rest, hkind, ?_⟩
  exact h.tokens.imp (fun ⟨_, htokens⟩ => htokens.symm) fun ⟨_, hmay, htokens⟩ => ⟨hmay, htokens.symm⟩

end Accounts

/-- A run that ends without an error has read a program, the last semicolon
of which may have been supplied. -/
theorem run_accepts {D : Driver tables} {given : List Token} {may : Bool} {p : Parser}
    (h : Accounts D given may [] p) (hclean : p.lastError = none) {fuel : Nat} {root : Node}
    (hrun : p.run tables fuel = some ⟨some root, []⟩) :
    ∃ (d : Phrase (.nonTerminal .program)) (after : Token) (more : List Token),
      after.kind = .endOfInput ∧ (given = d.tokens ++ after :: more ∨
        may = true ∧ closed given = d.tokens ++ after :: more) := by
  refine run_clean_leadsTo (fun p => ∃ read, Accounts D given may read p)
    (fun _ => ∃ (d : Phrase (.nonTerminal .program)) (after : Token) (more : List Token),
      after.kind = .endOfInput ∧ (given = d.tokens ++ after :: more ∨
        may = true ∧ closed given = d.tokens ++ after :: more))
    ?_ ?_ ?_ ?_ ⟨[], h⟩ hclean hrun
  · exact fun p state ⟨read, hp⟩ haction => ⟨_, hp.shift haction⟩
  · exact fun p index rule q ⟨read, hp⟩ haction hrule hq => ⟨read, hp.reduce haction hrule hq⟩
  · exact fun p root ⟨read, hp⟩ haction _ => hp.accept haction
  · exact fun p ⟨read, hp⟩ hcan => ⟨read, hp.supply hcan⟩

end Parser

end BoardScript
