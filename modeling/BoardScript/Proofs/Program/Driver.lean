/-
What the parser needs of its tables. A driver says for each state which
items are in it, what may follow them and where each symbol leads, and
that the tables act accordingly. Everything about the parser is shown for
any tables with a driver, so that no proof about parsing comes near the
construction of the tables; the tables of the language have one
(`driver`).
-/
import BoardScript.Program.Parse
import BoardScript.Proofs.Program.Derivation

namespace BoardScript

open Grammar Lalr

/-- The states behind tables, with their items. -/
structure Driver (tables : Tables) where
  /-- the states that there are -/
  state : StateId → Prop
  /-- the items of a state and what may follow each -/
  items : StateId → Item → KindSet → Prop
  /-- where a symbol leads -/
  target : StateId → Symbol → Option StateId
  start : state 0 ∧ ∃ following, items 0 ⟨0, 0⟩ following ∧ following.contains .endOfInput = true
  /-- an item belongs to a rule, and what may follow it to its head -/
  rule : ∀ {s item following}, state s → items s item following →
    ∃ rule, rules[item.rule]? = some rule ∧ item.dot ≤ rule.production.body.length ∧
      ∀ kind, following.contains kind = true → kind ∈ ends rule.production.head
  /-- a nonterminal behind a dot brings in its rules -/
  predict : ∀ {s item following n rest index rule}, items s item following →
    tabulated.remaining item = .nonTerminal n :: rest → rules[index]? = some rule →
    rule.production.head = n →
    ∃ known, items s ⟨index, 0⟩ known ∧ (tabulated.follows rest following).Within known
  /-- the symbol behind a dot leads to the item past it -/
  advance : ∀ {s item following symbol rest}, state s → items s item following →
    tabulated.remaining item = symbol :: rest →
    ∃ t known, target s symbol = some t ∧ items t item.next known ∧ following.Within known
  /-- a symbol that stands behind a dot leads to a state, and the items there
  that have been begun come from where the symbol stood behind their dot -/
  moved : ∀ {s symbol t}, state s → target s symbol = some t → state t ∧
    (∃ item rest, tabulated.remaining item = symbol :: rest) ∧
    ∀ {item following}, items t item following → item ≠ ⟨0, 0⟩ ∧ ∀ {dot}, item.dot = dot + 1 →
      (∃ f, items s ⟨item.rule, dot⟩ f) ∧
        ∃ rest, tabulated.remaining ⟨item.rule, dot⟩ = symbol :: rest
  /-- a rule of which nothing has been read stands for a nonterminal behind a
  dot, and is brought in by one behind the dot of a rule that has been begun -/
  begun : ∀ {s index rule following}, state s → items s ⟨index, 0⟩ following →
    rules[index]? = some rule → index ≠ 0 →
    (∃ item known rest, items s item known ∧
      tabulated.remaining item = .nonTerminal rule.production.head :: rest) ∧
    ∃ item known n rest, items s item known ∧ (item = ⟨0, 0⟩ ∨ item.dot ≠ 0) ∧
      tabulated.remaining item = .nonTerminal n :: rest ∧ rule.production.head ∈ reach n
  /-- nothing has been read in the first state -/
  unread : ∀ {item following}, items 0 item following → item.dot = 0
  shift : ∀ {s kind t}, state s → target s (.terminal kind) = some t →
    tables.action s kind = some (.shift t)
  finish : ∀ {s item following kind}, state s → items s item following →
    tabulated.remaining item = [] → following.contains kind = true →
    (item.rule = ifRule → kind ≠ .elseWord) → tables.action s kind = some (finish item.rule)
  goto : ∀ {s} n, state s → tables.goto s n = target s (.nonTerminal n)
  action : ∀ {s kind action}, state s → tables.action s kind = some action →
    (∃ t, action = .shift t ∧ target s (.terminal kind) = some t) ∨
      ∃ item following, items s item following ∧ tabulated.remaining item = [] ∧
        following.contains kind = true ∧ action = Grammar.finish item.rule

/-- Rules are the productions with what they build. -/
theorem exists_rule {index : Nat} {p : Production}
    (h : tabulated.productions[index]? = some p) :
    ∃ rule, rules[index]? = some rule ∧ rule.production = p := by
  rw [getElem?_productions, productions, List.getElem?_map, Array.getElem?_toList] at h
  exact Option.map_eq_some_iff.1 h

namespace Lalr

/-- The productions of the language have a start of their own. -/
theorem augmented : Augmented productions := ⟨rfl, by decide +kernel⟩

/-- The states of the language's automaton. -/
def IsState (s : StateId) : Prop :=
  ∃ kernel, (Automaton.ofProductions tabulated).kernels[s]? = some kernel

/-- Why a rule of which nothing has been read is in a state. -/
theorem brought_in {s : StateId} (hs : IsState s) {index : Nat} {following : KindSet}
    (hmem : (⟨index, 0⟩, following) ∈ Tables.items tabulated s) {p : Production}
    (hp : tabulated.productions[index]? = some p) (hindex : index ≠ 0) :
    (∃ item known rest, (item, known) ∈ Tables.items tabulated s ∧
      tabulated.remaining item = .nonTerminal p.head :: rest) ∧
    ∃ item known n rest, (item, known) ∈ Tables.items tabulated s ∧
      (item = ⟨0, 0⟩ ∨ item.dot ≠ 0) ∧ tabulated.remaining item = .nonTerminal n :: rest ∧
        p.head ∈ reach n := by
  obtain ⟨kernel, hk⟩ := hs
  rw [getElem?_productions] at hp
  have hpred := augmented.predicted_of_unread hk hp hindex hmem
  refine ⟨?_, ?_⟩
  · obtain ⟨item, rest, hitem, hrem⟩ := exists_of_predicted hpred
    obtain ⟨known, hknown⟩ := (mem_items_iff hk).2 hitem
    exact ⟨item, known, rest, hknown, hrem⟩
  · obtain ⟨item, hitem, n, rest, hrem, hreach⟩ := reach_of_predicted hpred
    obtain ⟨known, hknown⟩ := (mem_items_iff hk).2 ((mem_stateItems sound_starts).2 (.inl hitem))
    exact ⟨item, known, n, rest, hknown, (reached_kernel hk).begun hitem, hrem, hreach⟩

end Lalr

namespace Driver

variable {tables : Tables} (D : Driver tables) {s : StateId} {kind : TokenKind}

/-- What is read leads on, and is not the end of input. -/
theorem shifted (hs : D.state s) {t : StateId} (h : tables.action s kind = some (.shift t)) :
    D.target s (.terminal kind) = some t ∧ kind ≠ .endOfInput := by
  have ht : D.target s (.terminal kind) = some t := by
    rcases D.action hs h with ⟨t', ht, htarget⟩ | ⟨item, _, -, -, -, hf⟩
    · obtain rfl := Action.shift.inj ht
      exact htarget
    · exact absurd hf.symm (finish_ne_shift _ _)
  obtain ⟨-, ⟨item, rest, hrem⟩, -⟩ := D.moved hs ht
  exact ⟨ht, fun e => (augmented.ne_of_remaining hrem).2 (by rw [e])⟩

/-- An item with nothing left to read has its dot at the end of a rule. -/
theorem dot_eq (hs : D.state s) {index dot : Nat} {following : KindSet}
    (hmem : D.items s ⟨index, dot⟩ following) (hrem : tabulated.remaining ⟨index, dot⟩ = []) :
    ∃ rule, rules[index]? = some rule ∧ dot = rule.production.body.length := by
  obtain ⟨rule, hrule, hdot, -⟩ := D.rule hs hmem
  rw [remaining_eq (tabulated_production hrule), List.drop_eq_nil_iff] at hrem
  exact ⟨rule, hrule, Nat.le_antisymm hdot hrem⟩

/-- The rule that an action names has been read to its end. -/
theorem finished (hs : D.state s) {index : Nat} (h : tables.action s kind = some (.reduce index)) :
    index ≠ 0 ∧ ∃ rule following, rules[index]? = some rule ∧
      D.items s ⟨index, rule.production.body.length⟩ following ∧
      following.contains kind = true := by
  rcases D.action hs h with ⟨t, ht, -⟩ | ⟨⟨index', dot⟩, f, hmem, hrem, hkind, hfinish⟩
  · cases ht
  obtain ⟨hindex, rfl⟩ := finish_eq_reduce.1 hfinish.symm
  obtain ⟨rule, hrule, rfl⟩ := D.dot_eq hs hmem hrem
  exact ⟨hindex, rule, f, hrule, hmem, hkind⟩

/-- A program is accepted at the end of input, when the start rule has been
read to its end. -/
theorem accepted (hs : D.state s) (h : tables.action s kind = some .accept) :
    kind = .endOfInput ∧ ∃ following, D.items s ⟨0, 1⟩ following := by
  rcases D.action hs h with ⟨t, ht, -⟩ | ⟨⟨index, dot⟩, f, hmem, hrem, hkind, hfinish⟩
  · cases ht
  obtain rfl : index = 0 := finish_eq_accept.1 hfinish.symm
  obtain ⟨rule, hrule, -, hends⟩ := D.rule hs hmem
  obtain ⟨rule', hrule', rfl⟩ := D.dot_eq hs hmem hrem
  obtain rfl := Option.some.inj hrule
  obtain rfl := Option.some.inj hrule'
  exact ⟨List.mem_singleton.1 (hends _ hkind), f, hmem⟩

end Driver

/-- The driver of the language's tables. -/
def driver : Driver tables where
  state := IsState
  items s item following := (item, following) ∈ Tables.items tabulated s
  target s symbol := (Automaton.ofProductions tabulated).target s symbol
  start := by
    refine ⟨⟨_, augmented.complete.start⟩, ?_⟩
    obtain ⟨following, hmem, hend⟩ := Lookaheads.ofAutomaton_start sound_starts augmented.complete.start
    exact ⟨following, mem_closure.2 (.inl hmem), hend⟩
  rule := by
    rintro s item following ⟨kernel, hk⟩ hmem
    obtain ⟨p, hp, hdot, hends⟩ := production_of_items hk hmem
    obtain ⟨rule, hrule, rfl⟩ := exists_rule hp
    exact ⟨rule, hrule, hdot, hends⟩
  predict := by
    intro s item following n rest index rule hmem hrem hrule hhead
    exact closure_closed sound_starts (Lookaheads.ofAutomaton_sound sound_starts s) hmem hrem
      (tabulated_production hrule) hhead
  advance := by
    rintro s item following symbol rest ⟨kernel, hk⟩ hmem hrem
    have hhead : (tabulated.remaining item).head? = some symbol := by rw [hrem]; rfl
    obtain ⟨t, reached, ht, -, hreached⟩ :=
      augmented.complete.exists_target hk (mem_stateItems_of_mem hk hmem) hhead
    obtain ⟨known, hknown, hle⟩ :=
      Lookaheads.ofAutomaton_sent sound_starts augmented.complete hk hmem hhead ht
    exact ⟨t, known, ht, mem_closure.2 (.inl hknown), hle⟩
  moved := by
    intro s symbol t hs ht
    obtain ⟨kernel, hk⟩ := hs
    obtain ⟨hreached, hbehind⟩ := augmented.reached hk ht
    exact ⟨hreached, hbehind, fun hmem => augmented.origin hk ht hmem⟩
  begun := by
    intro s index rule following hs hmem hrule hindex
    exact brought_in hs hmem (tabulated_production hrule) hindex
  unread := by
    intro item following hmem
    exact augmented.unread hmem
  shift := by
    rintro s kind t ⟨kernel, hk⟩ ht
    exact action_shift hk ht
  finish := by
    rintro s item following kind ⟨kernel, hk⟩ hmem hend hkind helse
    exact action_finish hk hmem hend hkind helse
  goto := by
    rintro s n ⟨kernel, hk⟩
    exact Tables.ofProductions_goto valid_start hk n
  action := by
    rintro s kind action ⟨kernel, hk⟩ h
    cases (Tables.ofProductions_action valid_start hk kind).1 action h with
    | shift ht => exact .inl ⟨_, rfl, ht⟩
    | finish hmem hend hkind => exact .inr ⟨_, _, hmem, hend, hkind, rfl⟩

/-- A symbol that leads somewhere stands behind the dot of an item. -/
theorem driver_origin {s t : StateId} {symbol : Symbol} (hs : driver.state s)
    (ht : driver.target s symbol = some t) :
    ∃ item following rest, driver.items s item following ∧
      tabulated.remaining item = symbol :: rest := by
  dsimp only [driver] at hs ht ⊢
  obtain ⟨kernel, hk⟩ := hs
  obtain ⟨reached, hmove, -⟩ := augmented.complete.target_eq_some hk ht
  obtain ⟨item, hitem, hhead⟩ := exists_of_successor hmove
  obtain ⟨following, hmem⟩ := (mem_items_iff hk).2 hitem
  obtain ⟨rest, hrest⟩ := List.head?_eq_some_iff.1 hhead
  exact ⟨item, following, rest, hmem, hrest⟩

end BoardScript
