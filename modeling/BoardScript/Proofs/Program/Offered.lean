/-
In every state that the parser can be in there is a token with which it goes
on. Every item of such a state occurs there with something that may follow
it (`Path.followed`): at the bottom of the stack that is the end of input, a
symbol that is read hands it on, and an item that is brought in has what may
come behind it from the one that brings it in. An item with a terminal behind
its dot goes on with that, one that is read to its end with what may follow
it, and one with a nonterminal has a rule over lower ones beside it.
-/
import BoardScript.Proofs.Program.Viable

namespace BoardScript

open Grammar Lalr

-- ======================================================= what follows items

/-- Where something may follow, something may follow symbols in front of it. -/
theorem exists_follows (symbols : List Grammar.Symbol) {following : KindSet} {kind : TokenKind}
    (h : following.contains kind = true) :
    ∃ kind, (tabulated.follows symbols following).contains kind = true := by
  obtain ⟨_, ds, rfl⟩ := exists_derivable symbols
  let after : Token := ⟨kind, "", ⟨0, 0⟩, ⟨1, 1⟩⟩
  obtain ⟨token, tokens, htokens⟩ : ∃ token tokens, ds.tokens ++ [after] = token :: tokens := by
    cases ds.tokens with
    | nil => exact ⟨_, _, rfl⟩
    | cons token tokens => exact ⟨_, _, rfl⟩
  exact ⟨token.kind, follows_contains ds.admits h htokens⟩

/-- Productions are those of the rules. -/
theorem exists_rule_of_mem {p : Production} (h : p ∈ productions) :
    ∃ (index : Nat) (rule : Rule), rules[index]? = some rule ∧ rule.production = p := by
  obtain ⟨index, hindex⟩ := List.mem_iff_getElem?.1 h
  obtain ⟨rule, hrule, rfl⟩ := exists_rule ((getElem?_productions index).trans hindex)
  exact ⟨index, rule, hrule, rfl⟩

section

variable {tables : Tables} {D : Driver tables}

/-- An item of a state that something may follow. -/
def Driver.Followed (D : Driver tables) (s : StateId) (item : Item) : Prop :=
  ∃ following kind, D.items s item following ∧ following.contains kind = true

namespace Driver.Followed

variable {s t : StateId} {item : Item} {rest : List Grammar.Symbol}

theorem advance (h : D.Followed s item) (hs : D.state s) {symbol : Grammar.Symbol}
    (hrem : tabulated.remaining item = symbol :: rest) (ht : D.target s symbol = some t) :
    D.Followed t item.next := by
  obtain ⟨following, kind, hmem, hkind⟩ := h
  obtain ⟨t', known, ht', hknown, hle⟩ := D.advance hs hmem hrem
  obtain rfl := Option.some.inj (ht.symm.trans ht')
  exact ⟨known, kind, hknown, hle _ hkind⟩

theorem predict (h : D.Followed s item) {n : NonTerminal}
    (hrem : tabulated.remaining item = .nonTerminal n :: rest) {index : Nat} {rule : Rule}
    (hrule : rules[index]? = some rule) (hhead : rule.production.head = n) :
    D.Followed s ⟨index, 0⟩ := by
  obtain ⟨following, kind, hmem, hkind⟩ := h
  obtain ⟨known, hknown, hle⟩ := D.predict hmem hrem hrule hhead
  obtain ⟨kind', hkind'⟩ := exists_follows rest hkind
  exact ⟨known, kind', hknown, hle _ hkind'⟩

/-- What a nonterminal brings in, through whatever rules. -/
theorem bring (h : D.Followed s item) {n : NonTerminal}
    (hrem : tabulated.remaining item = .nonTerminal n :: rest) {index : Nat} {rule : Rule}
    (hrule : rules[index]? = some rule) (hreach : rule.production.head ∈ reach n) :
    D.Followed s ⟨index, 0⟩ := by
  by_cases hne : rule.production.head = n
  · exact h.predict hrem hrule hne
  · -- a rule for a higher one, that begins with the head, is brought in as well
    obtain ⟨p, hp, hhead, hlt, others, hbody⟩ := exists_higher hreach hne
    obtain ⟨index', rule', hrule', rfl⟩ := exists_rule_of_mem hp
    have := height_lt rule'.production.head
    have hstart : tabulated.remaining ⟨index', 0⟩ = .nonTerminal rule.production.head :: others := by
      rw [remaining_eq (tabulated_production hrule'), List.drop_zero]
      exact hbody
    exact (h.bring hrem hrule' hhead).predict hstart hrule rfl
termination_by 16 - height rule.production.head

end Driver.Followed

/-- Whatever the parser has on its stack, every item of the state on top
occurs there with something that may follow it. -/
theorem Path.followed {stack : List StackEntry} {symbols : List Grammar.Symbol}
    (h : Path D stack symbols) {item : Item} {following : KindSet}
    (hmem : D.items (Parser.stateOf stack) item following) :
    D.Followed (Parser.stateOf stack) item := by
  induction h generalizing item following with
  | nil =>
      -- nothing has been read: the start is followed by the end of input
      have hstart : D.Followed 0 ⟨0, 0⟩ := by
        obtain ⟨known, hknown, hend⟩ := D.start.2
        exact ⟨known, .endOfInput, hknown, hend⟩
      obtain ⟨index, dot⟩ := item
      obtain rfl : dot = 0 := D.unread hmem
      by_cases hindex : index = 0
      · subst hindex
        exact hstart
      · obtain ⟨rule, hrule, -⟩ := D.rule D.start.1 hmem
        obtain ⟨-, item, known, n, rest, hitem, hbegun, hrem, hreach⟩ :=
          D.begun D.start.1 hmem hrule hindex
        have hitem0 : item = ⟨0, 0⟩ := hbegun.resolve_right fun hdot => hdot (D.unread hitem)
        exact (hitem0 ▸ hstart).bring hrem hrule hreach
  | @cons entry stack symbol symbols below ht ih =>
      have hs := (D.moved below.state ht).1
      -- an item that has been begun has what follows from the state below
      have begun : ∀ {item known}, D.items entry.state item known → item.dot ≠ 0 →
          D.Followed entry.state item := by
        rintro ⟨index, dot⟩ known hitem hdot
        obtain ⟨dot, rfl⟩ := Nat.exists_eq_succ_of_ne_zero hdot
        obtain ⟨⟨f, hf⟩, rest, hrem⟩ := ((D.moved below.state ht).2.2 hitem).2 rfl
        exact (ih hf).advance below.state hrem ht
      obtain ⟨index, dot⟩ := item
      by_cases hdot : dot = 0
      · subst hdot
        have hindex : index ≠ 0 := by
          rintro rfl
          exact ((D.moved below.state ht).2.2 hmem).1 rfl
        obtain ⟨rule, hrule, -⟩ := D.rule hs hmem
        obtain ⟨-, item, known, n, rest, hitem, hbegun, hrem, hreach⟩ :=
          D.begun hs hmem hrule hindex
        have hdot := hbegun.resolve_left fun e => ((D.moved below.state ht).2.2 hitem).1 e
        exact (begun hitem hdot).bring hrem hrule hreach
      · exact begun hmem hdot

end

-- ================================================================== actions

/-- Kinds that a text may be asked for. -/
def askable : List TokenKind :=
  TokenKind.all.filter fun kind => kind != .whitespace && kind != .unmatched

private theorem askable_checked :
    (productions.all fun p => (p.body.all fun
        | .terminal kind => askable.contains kind
        | .nonTerminal _ => true) && (ends p.head).all askable.contains) = true := by
  decide +kernel

/-- A state with an item that something may follow has an action for a token
that a text may be asked for. -/
theorem exists_action {s : StateId} (hs : driver.state s) {item : Item}
    (h : driver.Followed s item) {bound : Nat}
    (hbound : ∀ n, .nonTerminal n ∈ tabulated.remaining item → height n < bound) :
    ∃ kind ∈ askable, (tables.action s kind).isSome = true := by
  obtain ⟨following, kind, hmem, hkind⟩ := h
  obtain ⟨rule, hrule, -, hends⟩ := driver.rule hs hmem
  have hchecked := Bool.and_eq_true_iff.1 (List.all_eq_true.1 askable_checked _
    (mem_productions (tabulated_production hrule)))
  cases hrem : tabulated.remaining item with
  | nil =>
      -- read to its end: what may follow has an action, this or another one
      obtain ⟨kernel, hk⟩ := hs
      obtain ⟨chosen, hchosen⟩ := (Tables.ofProductions_action valid_start hk kind).2.1 _
        (.finish hmem hrem hkind)
      refine ⟨kind, List.contains_iff_mem.1 (List.all_eq_true.1 hchecked.2 _ (hends _ hkind)), ?_⟩
      exact Option.isSome_iff_exists.2 ⟨chosen, hchosen⟩
  | cons symbol rest =>
      cases symbol with
      | terminal expected =>
          obtain ⟨t, -, ht, -⟩ := driver.advance hs hmem hrem
          have hbody : .terminal expected ∈ rule.production.body := by
            rw [remaining_eq (tabulated_production hrule)] at hrem
            exact List.mem_of_mem_drop (hrem ▸ List.mem_cons_self)
          refine ⟨expected,
            List.contains_iff_mem.1 (List.all_eq_true.1 hchecked.1 _ hbody), ?_⟩
          exact Option.isSome_iff_exists.2 ⟨_, driver.shift hs ht⟩
      | nonTerminal n =>
          have hlt : height n < bound := hbound n (hrem ▸ List.mem_cons_self)
          obtain ⟨p, hp, hhead, hlower⟩ := exists_lower n
          obtain ⟨index, rule', hrule', rfl⟩ := exists_rule_of_mem hp
          have hbelow : driver.Followed s ⟨index, 0⟩ :=
            Driver.Followed.predict ⟨following, kind, hmem, hkind⟩ hrem hrule' hhead
          have hstart : tabulated.remaining ⟨index, 0⟩ = rule'.production.body :=
            remaining_eq (tabulated_production hrule') 0
          exact exists_action hs hbelow (hstart ▸ hlower)
termination_by bound

/-- Whatever the parser has on its stack, there is a token to ask for. -/
theorem Path.expected_ne_nil {stack : List StackEntry} {symbols : List Grammar.Symbol}
    (h : Path driver stack symbols) : tables.expected (Parser.stateOf stack) ≠ [] := by
  obtain ⟨item, following, hmem⟩ := h.exists_item
  obtain ⟨kind, hkind, haction⟩ :=
    exists_action h.state (h.followed hmem) fun n _ => height_lt n
  refine List.ne_nil_of_mem (a := kind) ?_
  obtain ⟨hall, hasked⟩ := List.mem_filter.1 hkind
  exact List.mem_filter.2 ⟨hall, by rw [hasked, haction]; rfl⟩

end BoardScript
