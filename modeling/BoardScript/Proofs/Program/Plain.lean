/-
The parser is the plain driver until it meets an error. Forget what the
symbols on its stack stand for, and the texts and places of its tokens
(`Parser.plain`): as long as there is an action, a step of the parser is a
step of the driver, and where there is none the driver refuses
(`Parser.plain_step`). From then on the parser has an error on record, so
that what it reads without an error is what the driver accepts
(`parses_iff_accepts`).
-/
import BoardScript.Grammar.Recognizer
import BoardScript.Proofs.Program.Progress

namespace BoardScript

open Grammar

namespace Parser

/-- What the plain driver keeps of a parser. -/
def plain (p : Parser) : Recognizer :=
  ⟨p.stack.map (·.state), p.lookahead.kind, p.rest.map (·.kind)⟩

theorem plain_start (options : ParseOptions) (source : Source) (tokens : List Token) :
    (start options source tokens).plain = Recognizer.start (tokens.map (·.kind)) := by
  cases tokens <;> rfl

theorem top_states (stack : List StackEntry) :
    Recognizer.top (stack.map (·.state)) = stateOf stack := by
  cases stack <;> rfl

theorem plain_shift (p : Parser) (state : StateId) :
    (p.shift state).plain = p.plain.shift state := by
  simp only [plain, Parser.shift, Parser.advance, Recognizer.shift]
  cases p.rest <;> rfl

variable {tables : Tables} {D : Driver tables} {symbols : List Symbol} {p : Parser}

/-- A rule read to its end has as many states on the stack as symbols. -/
theorem plain_reduce (h : p.Sound D symbols) {index : Nat}
    (haction : tables.action p.state p.lookahead.kind = some (.reduce index)) {rule : Rule}
    (hrule : rules[index]? = some rule) {q : Parser} (hq : p.reduce tables rule = some q) :
    p.plain.reduce tables rule.production = some q.plain := by
  obtain ⟨htake, -⟩ := h.path.finished haction hrule
  obtain ⟨m, target, -, hgoto, rfl⟩ := reduce_eq hq
  have hlength : rule.production.body.length ≤ (p.stack.map (·.state)).length := by
    have hlen := congrArg List.length htake
    rw [List.length_take, List.length_reverse, ← h.meant.length_eq] at hlen
    rw [List.length_map]
    omega
  have hstates : (p.stack.map (·.state)).drop rule.production.body.length
      = (p.stack.drop rule.production.body.length).map (·.state) := List.map_drop.symm
  simp only [plain, Recognizer.reduce, if_pos hlength, hstates, top_states, hgoto,
    Option.map_some, List.map_cons]

/-- Where there is an action, the parser and the driver take the same step.
Where there is none, the driver refuses. -/
theorem plain_step (h : p.Sound D symbols) :
    (∃ q symbols', p.step tables = .next q ∧ q.Sound D symbols' ∧
      (q.errors = p.errors ∧ q.lastError = p.lastError ∧ q.options = p.options) ∧
      p.plain.step productions tables = .next q.plain) ∨
    (∃ root, p.step tables = .done ⟨some root, p.errors⟩ ∧
      p.plain.step productions tables = .accepted) ∨
    (tables.action p.state p.lookahead.kind = none ∧
      p.plain.step productions tables = .refused) := by
  have hplain : tables.action (Recognizer.top p.plain.states) p.plain.lookahead
      = tables.action p.state p.lookahead.kind := by
    rw [plain, top_states]
    rfl
  unfold Recognizer.step
  rw [hplain]
  cases haction : tables.action p.state p.lookahead.kind with
  | none => exact .inr (.inr ⟨rfl, rfl⟩)
  | some action =>
      cases action with
      | shift state =>
          refine .inl ⟨p.shift state, _, ?_, (sound_shift h haction).1, shift_errors p state, ?_⟩
          · rw [Parser.step, haction]
          · rw [plain_shift]
      | reduce index =>
          obtain ⟨rule, q, hrule, hq, hsound, -⟩ := sound_reduce h haction
          have hproduction : productions[index]? = some rule.production := by
            rw [← Lalr.getElem?_productions]
            exact tabulated_production hrule
          refine .inl ⟨q, _, ?_, hsound, reduce_errors hq, ?_⟩
          · simp only [Parser.step, haction, hrule, Option.bind_some, hq]
          · simp only [hproduction, Option.bind_some, plain_reduce h haction hrule hq]
      | accept =>
          obtain ⟨root, hstep, -⟩ := step_accept h.path h.meant haction
          exact .inr (.inl ⟨root, hstep, rfl⟩)

/-- A parser that has met no error, and may supply no semicolon, comes to a
program without an error just when the driver accepts, and with the same
number of steps. -/
theorem run_iff_plain (h : p.Sound D symbols) (hclean : p.errors = [])
    (hlast : p.lastError = none) (hoptions : p.options.interactive = false) (fuel : Nat) :
    (∃ root, p.run tables fuel = some ⟨some root, []⟩) ↔
      p.plain.run productions tables fuel = some true := by
  induction fuel generalizing p symbols with
  | zero =>
      constructor
      · rintro ⟨root, hrun⟩
        cases hrun
      · intro hrun
        cases hrun
  | succ fuel ih =>
      rw [Parser.run, Recognizer.run]
      rcases plain_step h with ⟨q, symbols', hstep, hsound, ⟨herrors, hlast', hoptions'⟩, hplain⟩ |
        ⟨root, hstep, hplain⟩ | ⟨haction, hplain⟩
      · rw [hstep, hplain]
        exact ih hsound (herrors.trans hclean) (hlast'.trans hlast)
          ((congrArg ParseOptions.interactive hoptions').trans hoptions)
      · rw [hstep, hplain, hclean]
        exact ⟨fun _ => rfl, fun _ => ⟨root, rfl⟩⟩
      · -- the parser recovers, and has an error on record ever after
        rw [hplain]
        have hnone : p.canSupplySemicolon tables = false := by
          rw [canSupplySemicolon, hoptions]
          rfl
        constructor
        swap
        · intro hfalse
          cases hfalse
        rintro ⟨root, hrun⟩
        rw [Parser.step, haction] at hrun
        simp only [hnone, Bool.false_eq_true, if_false] at hrun
        cases hrecover : p.recover tables with
        | ok q =>
            rw [hrecover] at hrun
            exact absurd rfl (run_errors (recover_errors (.inl hrecover) (.inr hlast)) hrun)
        | error q =>
            rw [hrecover] at hrun
            cases hrun

end Parser

/-- The parser of the language and the plain driver on its tables agree on
which tokens are a program. -/
theorem parses_iff_accepts (source : Source) {tokens : List Token} (h : Ended tokens)
    (fuel : Nat) :
    (∃ root, (Parser.start {} source tokens).run tables fuel = some ⟨some root, []⟩) ↔
      (Recognizer.start (tokens.map (·.kind))).run productions tables fuel = some true := by
  have hstart := Parser.sound_start (D := driver) {} source h
  rw [Parser.run_iff_plain hstart rfl rfl rfl, Parser.plain_start]

end BoardScript
