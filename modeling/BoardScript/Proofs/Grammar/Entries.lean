/-
What the tables say. A state has a candidate action for a token kind when
the automaton moves on the kind, or when an item of the state is read to
its end and the kind may follow it. The entry is one of the candidates,
there is one whenever there is a candidate, and moving on goes before all
else (`ofProductions_action`). As long as no conflict is met there is only
one candidate (`ofProductions_candidate`). Places to go after a reduction are
the moves on nonterminals (`ofProductions_goto`).
-/
import BoardScript.Grammar.Tables
import BoardScript.Proofs.Grammar.Lookahead

namespace BoardScript.Grammar

open Ranked

-- ============================================================ single entries

namespace Row

/-- Room for every kind and every nonterminal. -/
def Full (row : Row) : Prop :=
  row.actions.size = TokenKind.all.length ∧ row.gotos.size = NonTerminal.count

theorem full_empty : Full empty := by
  simp [Full, empty]

@[simp] theorem action_empty (kind : TokenKind) : empty.action kind = none := by
  rw [Row.action, empty, Array.getD_eq_getD_getElem?, Array.getElem?_replicate,
    if_pos kind.index_lt]
  rfl

@[simp] theorem goto_empty (n : NonTerminal) : empty.goto n = none := by
  rw [Row.goto, empty, Array.getD_eq_getD_getElem?, Array.getElem?_replicate, if_pos n.index_lt]
  rfl

theorem action_set {row : Row} (h : row.Full) (kind other : TokenKind) (action : Action) :
    Row.action { row with actions := row.actions.set! kind.index (some action) } other
      = if other = kind then some action else row.action other := by
  unfold Row.action
  simp only [Array.set!_eq_setIfInBounds, Array.getD_eq_getD_getElem?]
  rw [Array.getElem?_setIfInBounds]
  by_cases e : other = kind
  · subst e
    rw [if_pos rfl, if_pos rfl, if_pos (by rw [h.1]; exact other.index_lt)]
    rfl
  · rw [if_neg (fun h => e (TokenKind.index_inj h.symm)), if_neg e]

theorem goto_set {row : Row} (h : row.Full) (n other : NonTerminal) (state : StateId) :
    Row.goto { row with gotos := row.gotos.set! n.index (some state) } other
      = if other = n then some state else row.goto other := by
  unfold Row.goto
  simp only [Array.set!_eq_setIfInBounds, Array.getD_eq_getD_getElem?]
  rw [Array.getElem?_setIfInBounds]
  by_cases e : other = n
  · subst e
    rw [if_pos rfl, if_pos rfl, if_pos (by rw [h.2]; exact other.index_lt)]
    rfl
  · rw [if_neg (fun h => e (NonTerminal.index_inj h.symm)), if_neg e]

end Row

/-- The chosen of two actions is one of them. -/
theorem Action.choose_mem (existing new : Action) :
    (existing.choose new).1 = existing ∨ (existing.choose new).1 = new := by
  cases existing <;> cases new <;> simp [choose]
  split <;> simp

theorem enter_gotos (state : StateId) (row : Row × List Conflict) (kind : TokenKind)
    (action : Action) : (enter state row kind action).1.gotos = row.1.gotos := by
  unfold enter
  dsimp only
  split
  · rfl
  · split <;> rfl

/-- Entering changes the one entry, to the new action or the one chosen. -/
theorem enter_action {row : Row × List Conflict} (hfull : row.1.Full) (state : StateId)
    (kind other : TokenKind) (action : Action) :
    (enter state row kind action).1.Full ∧
      (enter state row kind action).1.action other = if other = kind then
        some ((row.1.action kind).elim action fun existing => (existing.choose action).1)
      else row.1.action other := by
  unfold enter
  dsimp only
  cases hex : row.1.action kind with
  | none =>
      refine ⟨by simpa [Row.Full] using hfull, ?_⟩
      rw [Row.action_set hfull]
      rfl
  | some existing =>
      by_cases e : existing = action
      · subst e
        have hself : (existing.choose existing).1 = existing := by
          rcases Action.choose_mem existing existing with h | h <;> exact h
        simp only [if_true, Option.elim_some, hself]
        refine ⟨hfull, ?_⟩
        split
        · next e => rw [e, hex]
        · rfl
      · simp only [e, if_false]
        refine ⟨by simpa [Row.Full] using hfull, ?_⟩
        rw [Row.action_set hfull]
        rfl

-- ================================================================== moves

/-- What a row holds after the moves `done`. -/
structure Moved (done : List (Symbol × StateId)) (row : Row) : Prop where
  full : row.Full
  action : ∀ {kind action}, row.action kind = some action ↔
    ∃ state, action = .shift state ∧ (.terminal kind, state) ∈ done
  goto : ∀ {n state}, row.goto n = some state ↔ (.nonTerminal n, state) ∈ done

theorem moved_enterMove {done : List (Symbol × StateId)} {row : Row × List Conflict}
    (h : Moved done row.1) (state : StateId) {move : Symbol × StateId}
    (hnew : move.1 ∉ done.map Prod.fst) :
    Moved (done ++ [move]) (enterMove state row move).1 := by
  obtain ⟨symbol, target⟩ := move
  have hnone : ∀ t, (symbol, t) ∉ done := fun t ht => hnew (List.mem_map.2 ⟨_, ht, rfl⟩)
  cases symbol with
  | terminal kind =>
      have hempty : row.1.action kind = none := by
        cases hact : row.1.action kind with
        | none => rfl
        | some action =>
            obtain ⟨t, -, ht⟩ := h.action.1 hact
            exact absurd ht (hnone t)
      have hrow : enterMove state row (.terminal kind, target)
          = enter state row kind (.shift target) := rfl
      rw [hrow]
      refine ⟨(enter_action h.full state kind kind _).1, fun {other action} => ?_,
        fun {n t} => ?_⟩
      · rw [(enter_action h.full state kind other _).2, hempty, Option.elim_none]
        by_cases e : other = kind
        · subst e
          simp only [if_true, Option.some.injEq, List.mem_append, hnone, List.mem_singleton,
            Prod.mk.injEq, true_and, false_or, exists_eq_right]
          exact eq_comm
        · simp only [e, if_false, h.action, List.mem_append, List.mem_singleton, Prod.mk.injEq,
            Symbol.terminal.injEq, false_and, or_false]
      · rw [Row.goto, enter_gotos]
        show row.1.goto n = some t ↔ _
        simp [h.goto]
  | nonTerminal m =>
      refine ⟨by simpa [Row.Full, enterMove] using h.full, fun {kind action} => ?_,
        fun {n t} => ?_⟩
      · show row.1.action kind = some action ↔ _
        simp [h.action]
      · have hrow : (enterMove state row (.nonTerminal m, target)).1
            = { row.1 with gotos := row.1.gotos.set! m.index (some target) } := rfl
        rw [hrow, Row.goto_set h.full]
        by_cases e : n = m
        · subst e
          simp [hnone, eq_comm]
        · simp [e, h.goto]

theorem moved_foldl (state : StateId) {moves : List (Symbol × StateId)}
    (hnodup : (moves.map Prod.fst).Nodup) :
    Moved moves (moves.foldl (enterMove state) (Row.empty, [])).1 := by
  refine foldl_done (motive := fun done (row : Row × List Conflict) =>
      (done.map Prod.fst).Nodup → Moved done row.1)
    (fun _ => ⟨Row.full_empty, by simp, by simp⟩) (fun {done row} move h hnodup => ?_) moves hnodup
  rw [List.map_append, List.nodup_append] at hnodup
  exact moved_enterMove (h hnodup.1) state fun hm => hnodup.2.2 _ hm _ (by simp) rfl

-- ============================================================= reductions

/-- What a row holds when, after the shifts of `row`, the actions `entered`
have been entered. -/
structure Holds (row : Row) (entered : TokenKind → Action → Prop) (result : Row) : Prop where
  full : result.Full
  mem : ∀ {kind action}, result.action kind = some action →
    row.action kind = some action ∨ entered kind action
  any : ∀ {kind action}, entered kind action → ∃ chosen, result.action kind = some chosen
  shift : ∀ {kind state}, row.action kind = some (.shift state) →
    result.action kind = some (.shift state)
  gotos : result.gotos = row.gotos

theorem holds_enter {row : Row} {entered : TokenKind → Action → Prop}
    {result : Row × List Conflict} (h : Holds row entered result.1) (state : StateId)
    (kind : TokenKind) (action : Action) :
    Holds row (fun k x => entered k x ∨ k = kind ∧ x = action)
      (enter state result kind action).1 := by
  have hact := fun other => (enter_action h.full state kind other action).2
  refine ⟨(enter_action h.full state kind kind action).1, fun {k x} hx => ?_,
    fun {k x} hx => ?_, fun {k t} ht => ?_, (enter_gotos _ _ _ _).trans h.gotos⟩
  · rw [hact k] at hx
    split at hx
    · next e =>
        subst e
        obtain rfl := Option.some.inj hx
        cases hex : result.1.action k with
        | none => exact .inr (.inr ⟨rfl, rfl⟩)
        | some existing =>
            rcases Action.choose_mem existing action with hc | hc
            · rw [Option.elim_some, hc]
              exact (h.mem hex).imp_right .inl
            · rw [Option.elim_some, hc]
              exact .inr (.inr ⟨rfl, rfl⟩)
    · exact (h.mem hx).imp_right .inl
  · rw [hact k]
    split
    · exact ⟨_, rfl⟩
    · next e =>
        rcases hx with hx | ⟨e', -⟩
        · exact h.any hx
        · exact absurd e' e
  · rw [hact k, h.shift ht]
    split
    · next e =>
        subst e
        rw [h.shift ht]
        rfl
    · rfl

/-- The action for a production read to its end. -/
def finish (rule : Nat) : Action := if rule = 0 then .accept else .reduce rule

theorem finish_ne_shift (rule : Nat) (state : StateId) : finish rule ≠ .shift state := by
  unfold finish
  split <;> simp

theorem finish_eq_reduce {rule index : Nat} :
    finish rule = .reduce index ↔ rule ≠ 0 ∧ rule = index := by
  unfold finish
  split <;> simp_all

theorem finish_eq_accept {rule : Nat} : finish rule = .accept ↔ rule = 0 := by
  unfold finish
  split <;> simp_all

theorem holds_enterReduction {g : Tabulated} {row : Row} {entered : TokenKind → Action → Prop}
    {result : Row × List Conflict} (h : Holds row entered result.1) (state : StateId)
    (entry : Item × KindSet) :
    Holds row (fun kind action => entered kind action ∨ g.remaining entry.1 = [] ∧
        entry.2.contains kind = true ∧ action = finish entry.1.rule)
      (enterReduction g state result entry).1 := by
  unfold enterReduction
  dsimp only
  by_cases hend : g.remaining entry.1 = []
  · rw [if_pos (List.isEmpty_iff.2 hend)]
    simp only [hend, true_and, ← KindSet.mem_toList]
    show Holds row _
      (entry.2.toList.foldl (fun row kind => enter state row kind (finish entry.1.rule)) result).1
    refine foldl_done (motive := fun kinds (result : Row × List Conflict) =>
        Holds row (fun kind action => entered kind action ∨ kind ∈ kinds ∧
          action = finish entry.1.rule) result.1)
      (by simpa using h) (fun kind h => ?_) entry.2.toList
    simpa [or_and_right, or_assoc] using holds_enter h state kind (finish entry.1.rule)
  · rw [if_neg (fun e => hend (List.isEmpty_iff.1 e))]
    simpa only [hend, false_and, or_false] using h

theorem holds_foldl {g : Tabulated} {row : Row × List Conflict} (hfull : row.1.Full)
    (state : StateId) (entries : List (Item × KindSet)) :
    Holds row.1 (fun kind action => ∃ entry ∈ entries, g.remaining entry.1 = [] ∧
        entry.2.contains kind = true ∧ action = finish entry.1.rule)
      (entries.foldl (enterReduction g state) row).1 := by
  refine foldl_done (motive := fun entries (result : Row × List Conflict) =>
      Holds row.1 (fun kind action => ∃ entry ∈ entries, g.remaining entry.1 = [] ∧
        entry.2.contains kind = true ∧ action = finish entry.1.rule) result.1)
    ⟨hfull, fun h => .inl h, by simp, fun h => h, rfl⟩ (fun entry h => ?_) entries
  simpa [or_and_right, exists_or] using holds_enterReduction (g := g) h state entry

-- =========================================================== no conflicts

/-- An entry that is there unless a conflict was met. -/
structure Stands (kind : TokenKind) (action : Action) (row : Row × List Conflict) : Prop where
  full : row.1.Full
  entry : row.2 = [] → row.1.action kind = some action

/-- Entering without a conflict finds no other action. -/
theorem enter_clean {row : Row × List Conflict} {state : StateId} {kind : TokenKind}
    {action : Action} (h : (enter state row kind action).2 = []) :
    row.2 = [] ∧ ∀ existing, row.1.action kind = some existing → existing = action := by
  unfold enter at h
  dsimp only at h
  cases hex : row.1.action kind with
  | none =>
      rw [hex] at h
      exact ⟨h, fun _ he => by cases he⟩
  | some existing =>
      rw [hex] at h
      by_cases e : existing = action
      · subst e
        simp only [if_true] at h
        exact ⟨h, fun _ he => (Option.some.inj he).symm⟩
      · simp [e] at h

theorem stands_enter {row : Row × List Conflict} (hfull : row.1.Full) (state : StateId)
    (kind : TokenKind) (action : Action) : Stands kind action (enter state row kind action) := by
  refine ⟨(enter_action hfull state kind kind action).1, fun h => ?_⟩
  rw [(enter_action hfull state kind kind action).2, if_pos rfl]
  cases hex : row.1.action kind with
  | none => rfl
  | some existing =>
      obtain rfl := (enter_clean h).2 existing hex
      rcases Action.choose_mem existing existing with hc | hc <;> rw [Option.elim_some, hc]

theorem Stands.enter {kind : TokenKind} {action : Action} {row : Row × List Conflict}
    (h : Stands kind action row) (state : StateId) (other : TokenKind) (new : Action) :
    Stands kind action (enter state row other new) := by
  refine ⟨(enter_action h.full state other other new).1, fun hclean => ?_⟩
  obtain ⟨hrow, hsame⟩ := enter_clean hclean
  have hentry := h.entry hrow
  by_cases e : kind = other
  · subst e
    obtain rfl := hsame action hentry
    exact (stands_enter h.full state kind action).entry hclean
  · rw [(enter_action h.full state other kind new).2, if_neg e, hentry]

theorem full_enter {row : Row × List Conflict} (hfull : row.1.Full) (state : StateId)
    (kind : TokenKind) (action : Action) : (enter state row kind action).1.Full :=
  (enter_action hfull state kind kind action).1

theorem full_enterReduction {g : Tabulated} {row : Row × List Conflict} (hfull : row.1.Full)
    (state : StateId) (entry : Item × KindSet) :
    (enterReduction g state row entry).1.Full := by
  unfold enterReduction
  dsimp only
  split
  · exact List.foldlRecOn (motive := fun row : Row × List Conflict => row.1.Full) _ _ hfull
      fun row hrow kind _ => full_enter hrow state kind _
  · exact hfull

theorem Stands.enterReduction {g : Tabulated} {kind : TokenKind} {action : Action}
    {row : Row × List Conflict} (h : Stands kind action row) (state : StateId)
    (entry : Item × KindSet) : Stands kind action (enterReduction g state row entry) := by
  unfold Grammar.enterReduction
  dsimp only
  split
  · exact List.foldlRecOn (motive := Stands kind action) _ _ h
      fun row hrow other _ => hrow.enter state other _
  · exact h

/-- The entry of an item read to its end. -/
theorem stands_enterReduction {g : Tabulated} {row : Row × List Conflict} (hfull : row.1.Full)
    (state : StateId) {entry : Item × KindSet} (hend : g.remaining entry.1 = [])
    {kind : TokenKind} (hkind : entry.2.contains kind = true) :
    Stands kind (finish entry.1.rule) (enterReduction g state row entry) := by
  unfold enterReduction
  dsimp only
  rw [if_pos (List.isEmpty_iff.2 hend)]
  exact foldl_establishes (I := fun row : Row × List Conflict => row.1.Full)
    (KindSet.mem_toList.2 hkind) (fun row other _ hrow => full_enter hrow state other _)
    (fun row other _ _ hrow => hrow.enter state other _)
    (fun row hrow => stands_enter hrow state kind _) hfull

-- ============================================================= the tables

namespace Tables

variable {productions : List Production}

/-- The lookaheads that the tables of the productions rest on. -/
def lookaheads (g : Tabulated) : Lookaheads :=
  Lookaheads.ofAutomaton g (Automaton.ofProductions g)

/-- The items of a state with what may follow them. -/
def items (g : Tabulated) (state : StateId) : List (Item × KindSet) :=
  closure g ((lookaheads g).kernel (Automaton.ofProductions g) state)

theorem ofProductions_row {state : StateId} {kernel : List Item}
    (hk : (Automaton.ofProductions (.ofProductions productions)).kernels[state]? = some kernel) :
    (ofProductions productions).rows[state]? = some (row (.ofProductions productions)
      (Automaton.ofProductions (.ofProductions productions))
      (lookaheads (.ofProductions productions)) state).1 := by
  have hlt := (Array.getElem?_eq_some_iff.1 hk).1
  unfold ofProductions
  dsimp only
  rw [List.getElem?_toArray, List.getElem?_map, List.getElem?_map, List.getElem?_range hlt]
  rfl

/-- What may be done in a state on seeing a kind. -/
inductive Candidate (g : Tabulated) (state : StateId) (kind : TokenKind) : Action → Prop
  | shift {target : StateId}
      (h : (Automaton.ofProductions g).target state (.terminal kind) = some target) :
      Candidate g state kind (.shift target)
  | finish {item : Item} {following : KindSet} (hmem : (item, following) ∈ items g state)
      (hend : g.remaining item = []) (hkind : following.contains kind = true) :
      Candidate g state kind (finish item.rule)

namespace Candidate

variable {g : Tabulated} {state : StateId} {kind : TokenKind}

theorem target_eq {target : StateId} (h : Candidate g state kind (.shift target)) :
    (Automaton.ofProductions g).target state (.terminal kind) = some target := by
  generalize he : Action.shift target = action at h
  cases h with
  | shift ht =>
      obtain rfl := Action.shift.inj he
      exact ht
  | finish _ _ _ => exact absurd he.symm (finish_ne_shift _ _)

theorem item_of_reduce {rule : Nat} (h : Candidate g state kind (.reduce rule)) :
    rule ≠ 0 ∧ ∃ dot following, (⟨rule, dot⟩, following) ∈ items g state ∧
      g.remaining ⟨rule, dot⟩ = [] ∧ following.contains kind = true := by
  generalize he : Action.reduce rule = action at h
  cases h with
  | shift _ => cases he
  | @finish item following hmem hend hkind =>
      obtain ⟨hrule, rfl⟩ := finish_eq_reduce.1 he.symm
      exact ⟨hrule, item.dot, following, hmem, hend, hkind⟩

theorem item_of_accept (h : Candidate g state kind .accept) :
    ∃ dot following, (⟨0, dot⟩, following) ∈ items g state ∧ g.remaining ⟨0, dot⟩ = [] ∧
      following.contains kind = true := by
  generalize he : Action.accept = action at h
  cases h with
  | shift _ => cases he
  | @finish item following hmem hend hkind =>
      obtain ⟨rule, dot⟩ := item
      obtain rfl : rule = 0 := finish_eq_accept.1 he.symm
      exact ⟨dot, following, hmem, hend, hkind⟩

end Candidate

variable (hstart : Item.Valid (.ofProductions productions) ⟨0, 0⟩) {state : StateId}
  {kernel : List Item}
  (hk : (Automaton.ofProductions (.ofProductions productions)).kernels[state]? = some kernel)

include hstart hk

private theorem holds_row :
    ∃ shifts, Moved ((Automaton.ofProductions (.ofProductions productions)).moves.getD state [])
        shifts ∧
      ∃ result, (ofProductions productions).rows[state]? = some result ∧
        Holds shifts (fun kind action => ∃ entry ∈ items (.ofProductions productions) state,
          (Tabulated.ofProductions productions).remaining entry.1 = [] ∧
            entry.2.contains kind = true ∧ action = finish entry.1.rule) result := by
  have hcomplete := Automaton.ofProductions_complete hstart
  have hmoved := moved_foldl state (hcomplete.keys hk)
  exact ⟨_, hmoved, _, ofProductions_row hk, holds_foldl hmoved.full state _⟩

/-- The entry of a state for a kind is one of the candidates, some entry is
there if there is a candidate, and a shift is preferred. -/
theorem ofProductions_action (kind : TokenKind) :
    (∀ action, (ofProductions productions).action state kind = some action →
      Candidate (.ofProductions productions) state kind action) ∧
    (∀ action, Candidate (.ofProductions productions) state kind action →
      ∃ chosen, (ofProductions productions).action state kind = some chosen) ∧
    ∀ target, Candidate (.ofProductions productions) state kind (.shift target) →
      (ofProductions productions).action state kind = some (.shift target) := by
  obtain ⟨shifts, hmoved, result, hrow, hholds⟩ := holds_row hstart hk
  have hkeys := (Automaton.ofProductions_complete hstart).keys hk
  have hact : (ofProductions productions).action state kind = result.action kind := by
    rw [Tables.action, hrow]
    rfl
  have hshift : ∀ target, Candidate (.ofProductions productions) state kind (.shift target) →
      result.action kind = some (.shift target) := by
    intro target hc
    exact hholds.shift (hmoved.action.2 ⟨_, rfl, (lookup_eq_some_iff_mem hkeys).1 hc.target_eq⟩)
  rw [hact]
  refine ⟨fun action h => ?_, fun action hc => ?_, hshift⟩
  · rcases hholds.mem h with h | ⟨entry, he, hend, hkind, rfl⟩
    · obtain ⟨target, rfl, hmem⟩ := hmoved.action.1 h
      exact .shift ((lookup_eq_some_iff_mem hkeys).2 hmem)
    · exact .finish he hend hkind
  · cases hc with
    | shift h => exact ⟨_, hshift _ (.shift h)⟩
    | finish hmem hend hkind => exact hholds.any ⟨_, hmem, hend, hkind, rfl⟩

/-- Where no conflict was met, whatever may be done is what the entry says. -/
theorem ofProductions_candidate (hnone : (ofProductions productions).conflicts = [])
    {kind : TokenKind} {action : Action}
    (hc : Candidate (.ofProductions productions) state kind action) :
    (ofProductions productions).action state kind = some action := by
  cases hc with
  | shift h => exact (ofProductions_action hstart hk kind).2.2 _ (.shift h)
  | @finish item following hmem hend hkind =>
      have hclean : (row (.ofProductions productions)
          (Automaton.ofProductions (.ofProductions productions))
          (lookaheads (.ofProductions productions)) state).2 = [] := by
        have hlt := (Array.getElem?_eq_some_iff.1 hk).1
        refine (List.flatMap_eq_nil_iff.1 hnone) _ (List.mem_map.2 ⟨state, ?_, rfl⟩)
        exact List.mem_range.2 hlt
      have hkeys := (Automaton.ofProductions_complete hstart).keys hk
      have hentry (row : Row × List Conflict) (hrow : row.1.Full) : Stands kind (finish item.rule)
          (enterReduction (.ofProductions productions) state row (item, following)) :=
        @stands_enterReduction _ row hrow state (item, following) hend kind hkind
      have hstands : Stands kind (finish item.rule) (row (.ofProductions productions)
          (Automaton.ofProductions (.ofProductions productions))
          (lookaheads (.ofProductions productions)) state) :=
        foldl_establishes (P := Stands kind (finish item.rule))
          (I := fun row : Row × List Conflict => row.1.Full) hmem
          (fun row entry _ hrow => full_enterReduction hrow state entry)
          (fun row entry _ _ hrow => hrow.enterReduction state entry) hentry
          (moved_foldl state hkeys).full
      rw [Tables.action, ofProductions_row hk, Option.bind_some]
      exact hstands.entry hclean

/-- Where a state goes after a reduction is where it moves on the
nonterminal. -/
theorem ofProductions_goto (n : NonTerminal) :
    (ofProductions productions).goto state n
      = (Automaton.ofProductions (.ofProductions productions)).target state (.nonTerminal n) := by
  obtain ⟨shifts, hmoved, result, hrow, hholds⟩ := holds_row hstart hk
  have hkeys := (Automaton.ofProductions_complete hstart).keys hk
  have hgoto : (ofProductions productions).goto state n = shifts.goto n := by
    rw [Tables.goto, hrow]
    show result.goto n = _
    rw [Row.goto, hholds.gotos]
    rfl
  rw [hgoto]
  refine Option.ext fun target => ?_
  rw [hmoved.goto, ← lookup_eq_some_iff_mem hkeys]
  rfl

end Tables

end BoardScript.Grammar
