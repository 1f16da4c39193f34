/-
What a state knows of the symbols read. Fix productions with a start of
their own (`Augmented`). Every symbol on the stack leads from the state below
it to its own (`Trail`), and an item of the topmost state has been read as
far as its dot: the topmost symbols are those in front of the dot, and the
state below them has the item with nothing read (`Trail.item`). That state
also has somewhere to go on the head of the item's production
(`exists_goto`).

Nothing of the symbols that are left has to be known for this, and nothing
of what may follow them.
-/
import BoardScript.Proofs.Grammar.Entries

namespace BoardScript.Grammar

open Ranked

/-- Productions with a start of their own: production zero takes the program
for all there is, and neither its head nor the end of input is part of
anything. Another production for its head would never be used. -/
structure Augmented (productions : List Production) : Prop where
  start : productions.head? = some ⟨.accept, [.nonTerminal .program]⟩
  bodies : ∀ p ∈ productions, .nonTerminal .accept ∉ p.body ∧ .terminal .endOfInput ∉ p.body

variable {productions : List Production}

-- ================================================================= items

theorem getElem?_tabulated (rule : Nat) :
    (Tabulated.ofProductions productions).productions[rule]? = productions[rule]? :=
  List.getElem?_toArray

theorem sound_tabulated : sound (Tabulated.ofProductions productions).starts :=
  (Starts.ofProductions_settled productions).2.1

theorem remaining_tabulated {rule : Nat} {p : Production} (hp : productions[rule]? = some p)
    (dot : Nat) :
    (Tabulated.ofProductions productions).remaining ⟨rule, dot⟩ = p.body.drop dot := by
  rw [← getElem?_tabulated] at hp
  rw [Tabulated.remaining, Tabulated.body_eq hp]

/-- An item with a symbol behind its dot belongs to a production. -/
theorem production_of_remaining {item : Item} {symbol : Symbol} {rest : List Symbol}
    (h : (Tabulated.ofProductions productions).remaining item = symbol :: rest) :
    ∃ p, productions[item.rule]? = some p ∧ symbol :: rest = p.body.drop item.dot := by
  have hhead : ((Tabulated.ofProductions productions).remaining item).head? = some symbol := by
    rw [h]
    rfl
  obtain ⟨p, hp, -⟩ := Item.valid_of_head? hhead
  have hp : productions[item.rule]? = some p := by
    rw [← getElem?_tabulated]
    exact hp
  rw [remaining_tabulated hp item.dot] at h
  exact ⟨p, hp, h.symm⟩

theorem remaining_next {item : Item} {symbol : Symbol} {rest : List Symbol}
    (h : (Tabulated.ofProductions productions).remaining item = symbol :: rest) :
    (Tabulated.ofProductions productions).remaining item.next = rest := by
  obtain ⟨p, hp, hbody⟩ := production_of_remaining h
  rw [Item.next, remaining_tabulated hp, ← List.drop_drop, ← hbody]
  rfl

/-- A nonterminal that is predicted stands behind the dot of some item. -/
theorem exists_of_predicted {kernel : List Item} {n : NonTerminal}
    (h : Predicted (.ofProductions productions) kernel n) :
    ∃ item rest, item ∈ stateItems (.ofProductions productions) kernel ∧
      (Tabulated.ofProductions productions).remaining item = .nonTerminal n :: rest := by
  cases h with
  | @kernel item _ rest hitem hrem =>
      exact ⟨item, rest, (mem_stateItems sound_tabulated).2 (.inl hitem), hrem⟩
  | @production p _ rest hp hhead hbody =>
      obtain ⟨i, hi⟩ := Array.getElem?_of_mem hp
      refine ⟨⟨i, 0⟩, rest, (mem_stateItems sound_tabulated).2 (.inr ⟨p, hi, rfl, hhead⟩), ?_⟩
      rw [getElem?_tabulated] at hi
      rw [remaining_tabulated hi, List.drop_zero, hbody]

/-- The items of a kernel have been begun, apart from the start. -/
theorem Reached.begun {g : Tabulated} {kernel : List Item} (h : Reached g kernel) {item : Item}
    (hmem : item ∈ kernel) : item = ⟨0, 0⟩ ∨ item.dot ≠ 0 := by
  cases h with
  | start => exact .inl (List.mem_singleton.1 hmem)
  | move _ hmove =>
      obtain ⟨j, -, -, rfl⟩ := (mem_successors hmove).1 hmem
      exact .inr (Nat.succ_ne_zero _)

section States

variable {state : StateId} {kernel : List Item}
  (hk : (Automaton.ofProductions (.ofProductions productions)).kernels[state]? = some kernel)
  {item : Item}

include hk

/-- The items of a state are those of its kernel and what they predict. -/
theorem mem_items_iff :
    (∃ following, (item, following) ∈ Tables.items (.ofProductions productions) state) ↔
      item ∈ stateItems (.ofProductions productions) kernel := by
  have hsound := Lookaheads.ofAutomaton_sound
    (a := Automaton.ofProductions (.ofProductions productions)) (@sound_tabulated productions) state
  have hitems := @mem_closure_items (.ofProductions productions) sound_tabulated _ hsound item
  rw [(Lookaheads.ofAutomaton_fits sound_tabulated).map_fst hk] at hitems
  exact hitems.trans (mem_stateItems sound_tabulated).symm

theorem mem_stateItems_of_mem {following : KindSet}
    (h : (item, following) ∈ Tables.items (.ofProductions productions) state) :
    item ∈ stateItems (.ofProductions productions) kernel :=
  (mem_items_iff hk).1 ⟨following, h⟩

end States

namespace Augmented

variable (h : Augmented productions)

include h

theorem getElem?_zero : productions[0]? = some ⟨.accept, [.nonTerminal .program]⟩ := by
  rw [← List.head?_eq_getElem?]
  exact h.start

theorem valid : Item.Valid (.ofProductions productions) ⟨0, 0⟩ := by
  refine ⟨⟨.accept, [.nonTerminal .program]⟩, ?_, Nat.zero_le _⟩
  rw [getElem?_tabulated]
  exact h.getElem?_zero

theorem complete : Automaton.Complete (.ofProductions productions)
    (Automaton.ofProductions (.ofProductions productions)) :=
  Automaton.ofProductions_complete h.valid

/-- Neither the start nor the end of input stands behind a dot. -/
theorem ne_of_remaining {item : Item} {symbol : Symbol} {rest : List Symbol}
    (hrem : (Tabulated.ofProductions productions).remaining item = symbol :: rest) :
    symbol ≠ .nonTerminal .accept ∧ symbol ≠ .terminal .endOfInput := by
  obtain ⟨p, hp, hbody⟩ := production_of_remaining hrem
  have hmem : symbol ∈ p.body := List.mem_of_mem_drop (hbody ▸ List.mem_cons_self)
  obtain ⟨haccept, hend⟩ := h.bodies p (List.mem_of_getElem? hp)
  exact ⟨fun e => haccept (e ▸ hmem), fun e => hend (e ▸ hmem)⟩

/-- So the start is never predicted. -/
theorem ne_of_predicted {kernel : List Item} {n : NonTerminal}
    (hpred : Predicted (.ofProductions productions) kernel n) : n ≠ .accept := by
  intro hn
  cases hpred with
  | kernel _ hrem => exact (h.ne_of_remaining hrem).1 (by rw [hn])
  | @production p _ rest hp _ hbody =>
      have hmem : .nonTerminal .accept ∈ p.body := by
        rw [hbody, hn]
        exact List.mem_cons_self
      exact (h.bodies p (List.mem_toArray.1 hp)).1 hmem

/-- A rule that is predicted is not the first. -/
theorem rule_ne_zero {kernel : List Item} {rule : Nat} {p : Production}
    (hp : productions[rule]? = some p)
    (hpred : Predicted (.ofProductions productions) kernel p.head) : rule ≠ 0 := by
  rintro rfl
  obtain rfl := Option.some.inj (h.getElem?_zero.symm.trans hp)
  exact h.ne_of_predicted hpred rfl

-- ================================================================ moves

variable {state target : StateId} {kernel : List Item} {symbol : Symbol} {item : Item}
  {following : KindSet}

/-- Where a symbol leads is a state, and the symbol stood behind a dot. -/
theorem reached (hk : (Automaton.ofProductions (.ofProductions productions)).kernels[state]?
      = some kernel)
    (ht : (Automaton.ofProductions (.ofProductions productions)).target state symbol
      = some target) :
    (∃ reached, (Automaton.ofProductions (.ofProductions productions)).kernels[target]?
        = some reached) ∧
      ∃ item rest, (Tabulated.ofProductions productions).remaining item = symbol :: rest := by
  obtain ⟨reached, hmove, hreached⟩ := h.complete.target_eq_some hk ht
  obtain ⟨item, -, hhead⟩ := exists_of_successor hmove
  exact ⟨⟨reached, hreached⟩, item, List.head?_eq_some_iff.1 hhead⟩

/-- An item of a state that a symbol has led to: it is not about to read the
start, and if anything of it has been read, then the symbol, in a state that
had the item with its dot one back. -/
theorem origin (hk : (Automaton.ofProductions (.ofProductions productions)).kernels[state]?
      = some kernel)
    (ht : (Automaton.ofProductions (.ofProductions productions)).target state symbol
      = some target)
    (hmem : (item, following) ∈ Tables.items (.ofProductions productions) target) :
    item ≠ ⟨0, 0⟩ ∧ ∀ {dot}, item.dot = dot + 1 →
      (∃ f, (⟨item.rule, dot⟩, f) ∈ Tables.items (.ofProductions productions) state) ∧
        ∃ rest, (Tabulated.ofProductions productions).remaining ⟨item.rule, dot⟩
          = symbol :: rest := by
  obtain ⟨reached, hmove, hreached⟩ := h.complete.target_eq_some hk ht
  rcases (mem_stateItems sound_tabulated).1 (mem_stateItems_of_mem hreached hmem) with hi | hi
  · obtain ⟨j, hj, hhead, rfl⟩ := (mem_successors hmove).1 hi
    refine ⟨fun e => absurd (congrArg Item.dot e) (Nat.succ_ne_zero _), fun {dot} hdot => ?_⟩
    obtain rfl : j.dot = dot := Nat.succ.inj hdot
    exact ⟨(mem_items_iff hk).2 hj, List.head?_eq_some_iff.1 hhead⟩
  · -- a predicted item: nothing of it has been read, and it is not the start
    obtain ⟨p, hp, hdot, hpred⟩ := hi
    rw [getElem?_tabulated] at hp
    refine ⟨fun e => ?_, fun hd => absurd (hdot.symm.trans hd) (Nat.succ_ne_zero _).symm⟩
    exact h.rule_ne_zero hp hpred (congrArg Item.rule e)

/-- In the first state nothing has been read. -/
theorem unread (hmem : (item, following) ∈ Tables.items (.ofProductions productions) 0) :
    item.dot = 0 := by
  rcases (mem_stateItems sound_tabulated).1 (mem_stateItems_of_mem h.complete.start hmem)
    with hi | hi
  · rw [List.mem_singleton.1 hi]
  · obtain ⟨-, -, hdot, -⟩ := hi
    exact hdot

/-- An item of which nothing has been read is in a state since its head is
predicted there: the items of a kernel have been begun, apart from the
start. -/
theorem predicted_of_unread
    (hk : (Automaton.ofProductions (.ofProductions productions)).kernels[state]? = some kernel)
    {rule : Nat} {p : Production} (hp : productions[rule]? = some p) (hrule : rule ≠ 0)
    (hmem : (⟨rule, 0⟩, following) ∈ Tables.items (.ofProductions productions) state) :
    Predicted (.ofProductions productions) kernel p.head := by
  rcases (mem_stateItems sound_tabulated).1 (mem_stateItems_of_mem hk hmem) with hi | hi
  · rcases (h.complete.reached kernel (Array.mem_of_getElem? hk)).begun hi with e | hdot
    · exact absurd (congrArg Item.rule e) hrule
    · exact absurd rfl hdot
  · obtain ⟨q, hq, -, hpred⟩ := hi
    rw [getElem?_tabulated] at hq
    obtain rfl := Option.some.inj (hp.symm.trans hq)
    exact hpred

/-- So the head stands behind a dot in the state, and leads somewhere. -/
theorem exists_goto (hk : (Automaton.ofProductions (.ofProductions productions)).kernels[state]?
      = some kernel)
    {rule : Nat} {p : Production} (hp : productions[rule]? = some p) (hrule : rule ≠ 0)
    (hmem : (⟨rule, 0⟩, following) ∈ Tables.items (.ofProductions productions) state) :
    ∃ target, (Automaton.ofProductions (.ofProductions productions)).target state
      (.nonTerminal p.head) = some target := by
  obtain ⟨item, rest, hitem, hrem⟩ := exists_of_predicted (h.predicted_of_unread hk hp hrule hmem)
  obtain ⟨target, -, ht, -, -⟩ :=
    h.complete.exists_target hk hitem (List.head?_eq_some_iff.2 ⟨rest, hrem⟩)
  exact ⟨target, ht⟩

end Augmented

-- ============================================================ the stack

/-- The symbols read, the topmost first, each leading from the state below it
to its own. The bottom is state zero. -/
inductive Trail (productions : List Production) : List StateId → List Symbol → Prop
  | nil : Trail productions [] []
  | cons {states : List StateId} {symbols : List Symbol} {symbol : Symbol} {state : StateId}
      (below : Trail productions states symbols)
      (ht : (Automaton.ofProductions (.ofProductions productions)).target (states.headD 0) symbol
        = some state) :
      Trail productions (state :: states) (symbol :: symbols)

namespace Trail

variable {states : List StateId} {symbols : List Symbol}

theorem drop (t : Trail productions states symbols) (count : Nat) :
    Trail productions (states.drop count) (symbols.drop count) := by
  induction t generalizing count with
  | nil =>
      rw [List.drop_nil, List.drop_nil]
      exact .nil
  | cons below ht ih =>
      cases count with
      | zero => exact .cons below ht
      | succ count => exact ih count

variable (h : Augmented productions)

include h

/-- On top is a state. -/
theorem exists_kernel (t : Trail productions states symbols) :
    ∃ kernel, (Automaton.ofProductions (.ofProductions productions)).kernels[states.headD 0]?
      = some kernel := by
  induction t with
  | nil => exact ⟨_, h.complete.start⟩
  | cons _ ht ih =>
      obtain ⟨kernel, hk⟩ := ih
      exact (h.reached hk ht).1

/-- The state with nothing read of the start is the bottom. -/
theorem eq_nil (t : Trail productions states symbols) {following : KindSet}
    (hmem : (⟨0, 0⟩, following) ∈ Tables.items (.ofProductions productions) (states.headD 0)) :
    symbols = [] := by
  cases t with
  | nil => rfl
  | cons below ht =>
      obtain ⟨kernel, hk⟩ := below.exists_kernel h
      exact absurd rfl (h.origin hk ht hmem).1

/-- An item of the topmost state tells what is on top of the stack: the
symbols of its production up to the dot. The state below them has the item
with nothing read. -/
theorem item (t : Trail productions states symbols) {rule dot : Nat} {p : Production}
    (hp : productions[rule]? = some p) {following : KindSet}
    (hmem : (⟨rule, dot⟩, following) ∈ Tables.items (.ofProductions productions)
      (states.headD 0)) :
    dot ≤ states.length ∧ symbols.take dot = (p.body.take dot).reverse ∧
      ∃ f, (⟨rule, 0⟩, f) ∈ Tables.items (.ofProductions productions)
        ((states.drop dot).headD 0) := by
  induction dot generalizing states symbols following with
  | zero => exact ⟨Nat.zero_le _, by simp, following, hmem⟩
  | succ dot ih =>
      cases t with
      | nil => exact absurd (h.unread hmem) (Nat.succ_ne_zero _)
      | @cons states symbols symbol state below ht =>
          obtain ⟨kernel, hk⟩ := below.exists_kernel h
          obtain ⟨⟨f, hf⟩, rest, hrest⟩ := (h.origin hk ht hmem).2 rfl
          obtain ⟨hlen, htake, hdrop⟩ := ih below hf
          rw [remaining_tabulated hp] at hrest
          have hget : p.body[dot]? = some symbol := by
            rw [← List.head?_drop, hrest]
            rfl
          refine ⟨Nat.succ_le_succ hlen, ?_, hdrop⟩
          rw [List.take_succ_cons, htake, List.take_add_one, hget]
          simp

end Trail

end BoardScript.Grammar
