/-
What is on record of the errors of a text. Every record is of a token of the
text, asks for something else than what it found, and the records are in the
order of the text, no two of them at the same place (`errors_ordered`).

The parser may fail at one token again and again: it resumes there with
fewer symbols on its stack and meets the same token. What is carried from
step to step is that the errors on record are in front of the token at hand,
or at it if it has failed before (`Recorded`). A token that fails anew is
recorded, and counts as failed from then on. One that fails again is dropped
without a record. Where tokens are dropped or read, the parser gets to one
that starts further behind, since no token but the last is empty.
-/
import BoardScript.Proofs.Program.Offered
import BoardScript.Proofs.Token.Cover

namespace BoardScript

open Grammar Lalr

-- ================================================================== records

/-- An error about one of some tokens, that asks for something else. -/
structure SyntaxError.About (tokens : List Token) (error : SyntaxError) : Prop where
  token : ∃ token ∈ tokens, error.offset = token.span.start ∧ error.place = token.span ∧
    error.found = token.kind
  unexpected : error.found ∉ error.expected
  some_expected : error.expected ≠ []
  distinct : error.expected.Nodup
  in_order : error.expected.Pairwise fun a b => a.index < b.index
  askable : ∀ kind ∈ error.expected, kind ≠ .whitespace ∧ kind ≠ .unmatched

/-- What a state asks for. -/
theorem of_mem_expected {tables : Tables} {state : StateId} {kind : TokenKind}
    (h : kind ∈ tables.expected state) :
    kind ≠ .whitespace ∧ kind ≠ .unmatched ∧ tables.action state kind ≠ none := by
  have hasked := (List.mem_filter.1 h).2
  simp only [Bool.and_eq_true, bne_iff_ne, Option.isSome_iff_ne_none] at hasked
  exact ⟨hasked.1.1, hasked.1.2, hasked.2⟩

/-- The kinds that a state asks for are in declaration order. -/
theorem expected_in_order (tables : Tables) (state : StateId) :
    (tables.expected state).Pairwise fun a b => a.index < b.index :=
  List.Pairwise.filter _ (by decide)

/-- The tokens of a text start one behind the other. -/
theorem Token.scan_starts (text : String) :
    (scan text).Pairwise fun a b => a.span.start < b.span.start := by
  obtain ⟨tokens, eof, htokens, hends, -⟩ := exists_end .start (Comment.blank text.toList)
  have hordered := scan_ordered text
  have hsolid : ∀ token ∈ tokens, token.span.start < token.span.stop := by
    intro token hmem
    obtain ⟨hlength, -⟩ := cutsOut_of_mem (Comment.blank text.toList) token
      (htokens ▸ List.mem_append_left _ hmem) (hends token hmem)
    exact Nat.lt_add_of_pos_right hlength
  rw [scan_eq, htokens, List.pairwise_append] at hordered ⊢
  obtain ⟨hfront, -, hlast⟩ := hordered
  exact ⟨hfront.imp_of_mem fun ha _ h => (hsolid _ ha).trans_le h, List.pairwise_singleton _ _,
    fun a ha b hb => (hsolid a ha).trans_le (hlast a ha b hb)⟩

-- ================================================================== one step

namespace Parser

/-- An error about the token at hand. -/
theorem complaint_about {tables : Tables} {tokens : List Token} {p : Parser}
    (hmem : p.lookahead ∈ tokens) (haction : tables.action p.state p.lookahead.kind = none)
    (hexpected : tables.expected p.state ≠ []) : (p.complaint tables).About tokens where
  token := ⟨p.lookahead, hmem, rfl, rfl, rfl⟩
  unexpected hfound := (of_mem_expected hfound).2.2 haction
  some_expected := hexpected
  distinct := (expected_in_order tables p.state).imp fun hlt e => Nat.ne_of_lt hlt (congrArg _ e)
  in_order := expected_in_order tables p.state
  askable _ hkind := ⟨(of_mem_expected hkind).1, (of_mem_expected hkind).2.1⟩

/-- The parser has come to the token at hand among some tokens, and what is
on record is of those up to it. -/
structure Recorded (tokens : List Token) (p : Parser) : Prop where
  ahead : ∃ read, tokens = read ++ p.lookahead :: p.rest
  ordered : p.errors.Pairwise fun a b => a.offset < b.offset
  behind : ∀ error ∈ p.errors, error.offset < p.lookahead.span.start ∨
    error.offset = p.lookahead.span.start ∧ p.repeated = true
  about : ∀ error ∈ p.errors, error.About tokens

namespace Recorded

variable {tokens : List Token} {p q : Parser} {symbols : List Grammar.Symbol}

/-- Of errors up to the token at hand, those are in front of a later one. -/
theorem later (h : p.Recorded tokens)
    (hstarts : tokens.Pairwise fun a b => a.span.start < b.span.start) {skipped : List Token}
    {next : Token} {others : List Token} (hne : skipped ≠ [])
    (hskip : p.lookahead :: p.rest = skipped ++ next :: others) :
    (∃ read, tokens = read ++ next :: others) ∧
      p.lookahead.span.start < next.span.start ∧
      ∀ error ∈ p.errors, error.offset < next.span.start := by
  obtain ⟨read, hread⟩ := h.ahead
  have hlt : p.lookahead.span.start < next.span.start := by
    have hahead := (List.pairwise_append.1 (hread ▸ hstarts)).2.1
    rw [hskip] at hahead
    have hfirst : p.lookahead ∈ skipped := by
      cases skipped with
      | nil => exact absurd rfl hne
      | cons first skipped =>
          rw [(List.cons.inj hskip).1]
          exact List.mem_cons_self
    exact (List.pairwise_append.1 hahead).2.2 _ hfirst _ List.mem_cons_self
  refine ⟨⟨read ++ skipped, by rw [hread, hskip, List.append_assoc]⟩, hlt, fun error he => ?_⟩
  rcases h.behind error he with hbefore | ⟨heq, -⟩
  · exact hbefore.trans hlt
  · exact heq ▸ hlt

theorem shift (h : p.Recorded tokens) (hsound : p.Sound driver symbols)
    (hstarts : tokens.Pairwise fun a b => a.span.start < b.span.start) {state : StateId}
    (haction : tables.action p.state p.lookahead.kind = some (.shift state)) :
    (p.shift state).Recorded tokens := by
  obtain ⟨-, next, others, hrest, -, hshift⟩ := shift_eq hsound haction
  obtain ⟨hahead, -, hbefore⟩ := h.later hstarts (List.cons_ne_nil p.lookahead [])
    (show _ = [p.lookahead] ++ next :: others by rw [hrest]; rfl)
  rw [hshift]
  exact ⟨hahead, h.ordered, fun error he => .inl (hbefore error he), h.about⟩

theorem reduce (h : p.Recorded tokens) {rule : Rule} (hq : p.reduce tables rule = some q) :
    q.Recorded tokens := by
  obtain ⟨m, target, -, -, rfl⟩ := reduce_eq hq
  exact ⟨h.ahead, h.ordered, h.behind, h.about⟩

/-- What is on record behind a recovery, whether it goes on or not. -/
theorem record (h : p.Recorded tokens) (hsound : p.Sound driver symbols)
    (haction : tables.action p.state p.lookahead.kind = none)
    (hq : p.recover tables = .ok q ∨ p.recover tables = .error q) :
    q.errors.Pairwise (fun a b => a.offset < b.offset) ∧
      (∀ error ∈ q.errors, error.About tokens) ∧
      ∀ error ∈ q.errors, error.offset ≤ p.lookahead.span.start := by
  have hle : ∀ error ∈ p.errors, error.offset ≤ p.lookahead.span.start := fun error he =>
    (h.behind error he).elim Nat.le_of_lt fun heq => heq.1.le
  have hmem : p.lookahead ∈ tokens := by
    obtain ⟨read, hread⟩ := h.ahead
    exact hread ▸ List.mem_append_right _ List.mem_cons_self
  rw [recover_record hq]
  cases hrep : p.repeated with
  | true => exact ⟨h.ordered, h.about, hle⟩
  | false =>
      -- nothing is on record at the token yet
      have hbefore : ∀ error ∈ p.errors, error.offset < p.lookahead.span.start := by
        intro error he
        refine (h.behind error he).resolve_right fun heq => ?_
        rw [hrep] at heq
        exact Bool.false_ne_true heq.2
      refine ⟨?_, ?_, ?_⟩
      · exact List.pairwise_append.2 ⟨h.ordered, List.pairwise_singleton _ _, fun error he new hnew =>
          List.mem_singleton.1 hnew ▸ hbefore error he⟩
      · exact List.forall_mem_append.2
          ⟨h.about, List.forall_mem_singleton.2 (complaint_about hmem haction
            hsound.path.expected_ne_nil)⟩
      · exact List.forall_mem_append.2 ⟨hle, List.forall_mem_singleton.2 le_rfl⟩

theorem recover (h : p.Recorded tokens) (hsound : p.Sound driver symbols)
    (hstarts : tokens.Pairwise fun a b => a.span.start < b.span.start)
    (haction : tables.action p.state p.lookahead.kind = none)
    (hq : p.recover tables = .ok q) : q.Recorded tokens := by
  obtain ⟨hordered, habout, hle⟩ := h.record hsound haction (.inl hq)
  obtain ⟨-, hlast, hshifted, skipped, hskip⟩ := recover_spec hsound hq
  by_cases hne : skipped = []
  · -- the token is kept, and has failed before from now on
    subst hne
    obtain ⟨hlook, hrest⟩ := List.cons.inj hskip
    have hrepeated : q.repeated = true := by
      simp [repeated, hshifted, hlast, hlook]
    obtain ⟨read, hread⟩ := h.ahead
    refine ⟨⟨read, by rw [hread, hlook, hrest]⟩, hordered, fun error he => ?_, habout⟩
    rw [← hlook]
    exact (hle error he).lt_or_eq.imp_right fun heq => ⟨heq, hrepeated⟩
  · obtain ⟨hahead, hlt, -⟩ := h.later hstarts hne hskip
    exact ⟨hahead, hordered, fun error he => .inl ((hle error he).trans_lt hlt), habout⟩

-- ================================================================== the run

/-- A parser that is sound and has the right errors on record, as every step
but a supplied semicolon keeps it. -/
theorem step (h : p.Recorded tokens) (hsound : p.Sound driver symbols)
    (hoptions : p.options.interactive = false)
    (hstarts : tokens.Pairwise fun a b => a.span.start < b.span.start) :
    (p.step tables).LeadsTo
      (fun q => q.Recorded tokens ∧ (∃ symbols, q.Sound driver symbols) ∧
        q.options.interactive = false)
      (fun parsed => parsed.errors.Pairwise (fun a b => a.offset < b.offset) ∧
        ∀ error ∈ parsed.errors, error.About tokens) := by
  refine step_leadsTo (fun state haction => ?_) (fun index rule q haction hrule hq => ?_)
    (fun _ _ _ => ⟨h.ordered, h.about⟩) (fun hcan => ?_) (fun q haction hq => ?_)
    (fun q haction hq => ?_)
  · exact ⟨h.shift hsound hstarts haction, ⟨_, (sound_shift hsound haction).1⟩,
      (p.shift_errors state).2.2 ▸ hoptions⟩
  · obtain ⟨rule', q', hrule', hq', hsound', -⟩ := sound_reduce hsound haction
    obtain rfl := Option.some.inj (hrule.symm.trans hrule')
    obtain rfl := Option.some.inj (hq.symm.trans hq')
    exact ⟨h.reduce hq, ⟨_, hsound'⟩, (reduce_errors hq).2.2 ▸ hoptions⟩
  · simp [Parser.canSupplySemicolon, hoptions] at hcan
  · obtain ⟨drops, -, hsound', -⟩ := sound_recover hsound hq
    exact ⟨h.recover hsound hstarts haction hq, ⟨_, hsound'⟩,
      (recover_spec hsound hq).1 ▸ hoptions⟩
  · obtain ⟨hordered, habout, -⟩ := h.record hsound haction (.inr hq)
    exact ⟨hordered, habout⟩

/-- What is on record in the end. -/
theorem run (h : p.Recorded tokens) (hsound : p.Sound driver symbols)
    (hoptions : p.options.interactive = false)
    (hstarts : tokens.Pairwise fun a b => a.span.start < b.span.start) {fuel : Nat}
    {parsed : Parsed} (hrun : p.run tables fuel = some parsed) :
    parsed.errors.Pairwise (fun a b => a.offset < b.offset) ∧
      ∀ error ∈ parsed.errors, error.About tokens :=
  run_leadsTo
    (fun q => q.Recorded tokens ∧ (∃ symbols, q.Sound driver symbols) ∧
      q.options.interactive = false)
    (fun parsed => parsed.errors.Pairwise (fun a b => a.offset < b.offset) ∧
      ∀ error ∈ parsed.errors, error.About tokens)
    (fun _ ⟨h, ⟨_, hsound⟩, hoptions⟩ => h.step hsound hoptions hstarts)
    ⟨h, ⟨symbols, hsound⟩, hoptions⟩ hrun

end Recorded

end Parser

/-- The errors of a text stand in its order, no two at one place. Each is
about a token of the text, and it asks for kinds in declaration order, at
least one of them, and never for the kind found nor for what no text is asked
for. -/
theorem errors_ordered (source : Source) :
    (parse {} source).errors.Pairwise (fun a b => a.offset < b.offset) ∧
      ∀ error ∈ (parse {} source).errors, error.About (Token.scan source.text) := by
  have hended := ended_scan source.text
  have hahead : Token.scan source.text
      = [] ++ (Parser.start {} source (Token.scan source.text)).lookahead ::
        (Parser.start {} source (Token.scan source.text)).rest := by
    cases htokens : Token.scan source.text with
    | nil => exact absurd htokens (Token.scan_ne_nil _)
    | cons token rest => rfl
  have hstart : (Parser.start {} source (Token.scan source.text)).Recorded
      (Token.scan source.text) :=
    ⟨⟨[], hahead⟩, .nil, List.forall_mem_nil _, List.forall_mem_nil _⟩
  exact hstart.run (Parser.sound_start {} source hended) rfl (Token.scan_starts source.text)
    (run_good {} source).1

end BoardScript
