/-
Tables without a conflict recognise what their productions generate.

Soundness does not need the absence of conflicts: as long as it goes on, the
driver has on its stack symbols that derive the kinds read so far
(`Reading`), since a production read to its end finds its body on top; and
it can only accept when the one symbol on the stack is the program
(`Reading.step`).

For completeness, the driver follows a derivation. In a state that has an
item with some symbols behind its dot, in front of kinds that the symbols
derive and then a kind that may follow the item, every step of the
derivation is a candidate of the tables (`Yields.reaches`). Where a conflict
was met the entry might be another one; where none was, it is this one.
-/
import BoardScript.Grammar.Recognizer
import BoardScript.Proofs.Grammar.Beginning
import BoardScript.Proofs.Grammar.Prefix

namespace BoardScript.Grammar

open Ranked Recognizer

variable {productions : List Production}

-- ============================================================ the start

/-- The start is not predicted, whatever may follow it. -/
theorem Augmented.ofKernel_accept (h : Augmented productions) {kernel : List (Item × KindSet)}
    {following : KindSet} :
    (Predictions.ofKernel (.ofProductions productions) kernel).of .accept ≠ some following := by
  intro hof
  refine Predictions.ofKernel_all (P := fun n _ => n ≠ .accept) (fun hn _ => hn)
    (fun entry _ n rest hrem => ?_) (fun p hp _ _ n rest hbody => ?_) hof rfl
  · exact fun e => (h.ne_of_remaining hrem).1 (congrArg _ e)
  · refine fun e => (h.bodies p (List.mem_toArray.1 hp)).1 ?_
    rw [hbody, e]
    exact List.mem_cons_self

/-- Only the end of input may follow an item, if that is of the first
production. -/
def EndsInput (item : Item) (following : KindSet) : Prop :=
  item.rule = 0 → following.Within (.single .endOfInput)

theorem Augmented.endsInput_closure (h : Augmented productions) {kernel : List (Item × KindSet)}
    (hall : ∀ entry ∈ kernel, EndsInput entry.1 entry.2) :
    ∀ entry ∈ closure (.ofProductions productions) kernel, EndsInput entry.1 entry.2 := by
  intro entry he hrule
  rcases mem_closure.1 he with he | ⟨p, hp, -, hof⟩
  · exact hall entry he hrule
  · rw [getElem?_tabulated, hrule] at hp
    obtain rfl := Option.some.inj (h.getElem?_zero.symm.trans hp)
    exact absurd hof h.ofKernel_accept

/-- Only the end of input may follow the start. -/
theorem Augmented.eq_endOfInput (h : Augmented productions) {state : StateId} {dot : Nat}
    {following : KindSet} {kind : TokenKind}
    (hmem : (⟨0, dot⟩, following) ∈ Tables.items (.ofProductions productions) state)
    (hkind : following.contains kind = true) : kind = .endOfInput := by
  have hkernel := Lookaheads.ofAutomaton_all (P := EndsInput) (g := .ofProductions productions)
    (fun hs ht hrule => KindSet.union_within (hs hrule) (ht hrule)) (fun hs hrule => hs hrule)
    h.complete.start (fun _ => .refl _) (fun _ _ kind hk => by simp at hk) h.endsInput_closure state
  have hin := h.endsInput_closure hkernel _ hmem rfl kind hkind
  rw [KindSet.contains_single, decide_eq_true_eq] at hin
  exact hin.symm

/-- An item with nothing left to read has its dot at the end. -/
theorem Augmented.dot_eq (h : Augmented productions) {state : StateId} {kernel : List Item}
    (hk : (Automaton.ofProductions (.ofProductions productions)).kernels[state]? = some kernel)
    {rule dot : Nat} {following : KindSet}
    (hmem : (⟨rule, dot⟩, following) ∈ Tables.items (.ofProductions productions) state)
    (hend : (Tabulated.ofProductions productions).remaining ⟨rule, dot⟩ = []) :
    ∃ p, productions[rule]? = some p ∧ dot = p.body.length := by
  have hreached := h.complete.reached kernel (Array.mem_of_getElem? hk)
  obtain ⟨p, hp, hdot⟩ := valid_of_mem_stateItems sound_tabulated
    (hreached.ordered_valid h.valid).2 (mem_stateItems_of_mem hk hmem)
  rw [getElem?_tabulated] at hp
  rw [remaining_tabulated hp dot, List.drop_eq_nil_iff] at hend
  exact ⟨p, hp, Nat.le_antisymm hdot hend⟩

-- ============================================================ soundness

/-- A driver that has read `read` out of all kinds: the symbols on its stack
derive what was read, and the end of input is still ahead. -/
structure Reading (productions : List Production) (all : List TokenKind) (r : Recognizer)
    (symbols : List Symbol) (read : List TokenKind) : Prop where
  trail : Trail productions r.states symbols
  yields : Yields productions symbols.reverse read
  ahead : all = read ++ r.lookahead :: r.rest
  inside : .endOfInput ∉ read

namespace Reading

theorem start {all : List TokenKind} (hend : .endOfInput ∈ all) :
    Reading productions all (.start all) [] [] := by
  refine ⟨.nil, .nil, ?_, List.not_mem_nil⟩
  cases all with
  | nil => cases hend
  | cons kind rest => rfl

variable (h : Augmented productions) {all : List TokenKind} {r : Recognizer}
  {symbols : List Symbol} {read : List TokenKind}
  (reading : Reading productions all r symbols read)

include h reading

/-- What the entry of the topmost state stands for. -/
theorem candidate {action : Action}
    (haction : (Tables.ofProductions productions).action (top r.states) r.lookahead
      = some action) :
    Tables.Candidate (.ofProductions productions) (top r.states) r.lookahead action := by
  obtain ⟨kernel, hk⟩ := reading.trail.exists_kernel h
  exact (Tables.ofProductions_action h.valid hk r.lookahead).1 action haction

/-- Reading a kind puts it on the stack. The end of input is not read. -/
theorem shift (hend : .endOfInput ∈ all) {state : StateId}
    (haction : (Tables.ofProductions productions).action (top r.states) r.lookahead
      = some (.shift state)) :
    Reading productions all (r.shift state) (.terminal r.lookahead :: symbols)
      (read ++ [r.lookahead]) := by
  have ht := (reading.candidate h haction).target_eq
  obtain ⟨kernel, hk⟩ := reading.trail.exists_kernel h
  obtain ⟨-, item, rest, hrem⟩ := h.reached hk ht
  have hne : r.lookahead ≠ .endOfInput := fun e => (h.ne_of_remaining hrem).2 (congrArg _ e)
  -- so the end of input is behind it, and there is a next kind
  have hrest : .endOfInput ∈ r.rest := by
    rw [reading.ahead] at hend
    rcases List.mem_append.1 hend with hin | hin
    · exact absurd hin reading.inside
    · exact (List.mem_cons.1 hin).resolve_left hne.symm
  obtain ⟨kind, more, hmore⟩ := List.exists_cons_of_ne_nil (List.ne_nil_of_mem hrest)
  have hshift : r.shift state = ⟨state :: r.states, kind, more⟩ := by
    rw [Recognizer.shift, hmore]
  rw [hshift]
  refine ⟨.cons reading.trail ht, ?_, ?_, ?_⟩
  · rw [List.reverse_cons]
    exact reading.yields.append (.terminal _ .nil)
  · rw [List.append_assoc, reading.ahead, hmore]
    rfl
  · rw [List.mem_append, List.mem_singleton]
    exact not_or_intro reading.inside hne.symm

/-- A production read to its end finds its body on the stack, and below it a
state with somewhere to go. -/
theorem reduce {rule : Nat}
    (haction : (Tables.ofProductions productions).action (top r.states) r.lookahead
      = some (.reduce rule)) :
    ∃ p q symbols', productions[rule]? = some p ∧
      r.reduce (Tables.ofProductions productions) p = some q ∧
      Reading productions all q symbols' read := by
  obtain ⟨hrule, dot, following, hmem, hend, -⟩ := (reading.candidate h haction).item_of_reduce
  obtain ⟨kernel, hk⟩ := reading.trail.exists_kernel h
  obtain ⟨p, hp, rfl⟩ := h.dot_eq hk hmem hend
  obtain ⟨hlen, htake, f, hbottom⟩ := reading.trail.item h hp hmem
  rw [List.take_length] at htake
  have hbelow := reading.trail.drop p.body.length
  obtain ⟨kernel', hk'⟩ := hbelow.exists_kernel h
  obtain ⟨state, ht⟩ := h.exists_goto hk' hp hrule hbottom
  have hgoto : (Tables.ofProductions productions).goto
      (top (r.states.drop p.body.length)) p.head = some state :=
    (Tables.ofProductions_goto h.valid hk' p.head).trans ht
  refine ⟨p, ⟨state :: r.states.drop p.body.length, r.lookahead, r.rest⟩,
    .nonTerminal p.head :: symbols.drop p.body.length, hp, ?_, ?_⟩
  · simp only [Recognizer.reduce, hlen, if_true, hgoto, Option.map_some]
  -- the body, on top of the stack, derives the last part of what was read
  have hsymbols := congrArg List.reverse (List.take_append_drop p.body.length symbols)
  rw [List.reverse_append, htake, List.reverse_reverse] at hsymbols
  have hyields := reading.yields
  rw [← hsymbols] at hyields
  obtain ⟨x, y, rfl, hx, hy⟩ := hyields.split
  refine ⟨.cons hbelow ht, ?_, reading.ahead, reading.inside⟩
  rw [List.reverse_cons]
  exact hx.append (hy.node hp)

/-- The start read to its end is a program and the end of input. -/
theorem accept
    (haction : (Tables.ofProductions productions).action (top r.states) r.lookahead
      = some .accept) :
    r.lookahead = .endOfInput ∧ Yields productions [.nonTerminal .program] read := by
  obtain ⟨dot, following, hmem, hend, hkind⟩ := (reading.candidate h haction).item_of_accept
  obtain ⟨kernel, hk⟩ := reading.trail.exists_kernel h
  obtain ⟨p, hp, rfl⟩ := h.dot_eq hk hmem hend
  obtain rfl := Option.some.inj (h.getElem?_zero.symm.trans hp)
  obtain ⟨-, htake, f, hbottom⟩ := reading.trail.item h hp hmem
  -- the symbol on top is a program, and below it is the bottom
  have hrest := (reading.trail.drop 1).eq_nil h hbottom
  have hsymbols : symbols = [.nonTerminal .program] := by
    rw [← List.take_append_drop 1 symbols, hrest]
    exact congrArg (· ++ []) htake
  have hyields := reading.yields
  rw [hsymbols] at hyields
  exact ⟨h.eq_endOfInput hmem hkind, hyields⟩

/-- What a step of the driver does: it goes on, or what was read is a program
and it accepts, or it refuses. It is never stuck. -/
theorem step (hend : .endOfInput ∈ all) :
    (∃ q symbols' read', r.step productions (Tables.ofProductions productions) = .next q ∧
      Reading productions all q symbols' read') ∨
    (r.step productions (Tables.ofProductions productions) = .accepted ∧
      r.lookahead = .endOfInput ∧ Yields productions [.nonTerminal .program] read) ∨
    r.step productions (Tables.ofProductions productions) = .refused := by
  unfold Recognizer.step
  cases haction : (Tables.ofProductions productions).action (top r.states) r.lookahead with
  | none => exact .inr (.inr rfl)
  | some action =>
      cases action with
      | shift state => exact .inl ⟨_, _, _, rfl, reading.shift h hend haction⟩
      | reduce rule =>
          obtain ⟨p, q, symbols', hp, hq, hreading⟩ := reading.reduce h haction
          refine .inl ⟨q, symbols', read, ?_, hreading⟩
          simp only [hp, Option.bind_some, hq]
      | accept =>
          obtain ⟨hlook, hyields⟩ := reading.accept h haction
          exact .inr (.inl ⟨rfl, hlook, hyields⟩)

/-- A run that accepts has read a program in front of the first end of
input. -/
theorem run (hend : .endOfInput ∈ all) {fuel : Nat}
    (hrun : r.run productions (Tables.ofProductions productions) fuel = some true) :
    ∃ read more, all = read ++ .endOfInput :: more ∧ .endOfInput ∉ read ∧
      Yields productions [.nonTerminal .program] read := by
  induction fuel generalizing r symbols read with
  | zero => cases hrun
  | succ fuel ih =>
      rw [Recognizer.run] at hrun
      rcases reading.step h hend with ⟨q, symbols', read', hstep, hreading⟩ |
        ⟨hstep, hlook, hyields⟩ | hstep
      · rw [hstep] at hrun
        exact ih hreading hrun
      · refine ⟨read, r.rest, ?_, reading.inside, hyields⟩
        rw [← hlook]
        exact reading.ahead
      · rw [hstep] at hrun
        cases hrun

end Reading

-- ========================================================== completeness

/-- A driver with the kinds ahead of it. -/
def facing (states : List StateId) (kinds : List TokenKind) : Recognizer :=
  ⟨states, kinds.headD .endOfInput, kinds.tail⟩

/-- Steps that go on lead from one driver to another. -/
abbrev Reaches (productions : List Production) : Recognizer → Recognizer → Prop :=
  Relation.ReflTransGen fun r q => r.step productions (Tables.ofProductions productions) = .next q

theorem Reaches.run {r q : Recognizer} (h : Reaches productions r q) {fuel : Nat} {answer : Bool}
    (hrun : q.run productions (Tables.ofProductions productions) fuel = some answer) :
    ∃ more, r.run productions (Tables.ofProductions productions) more = some answer := by
  induction h using Relation.ReflTransGen.head_induction_on with
  | refl => exact ⟨fuel, hrun⟩
  | head hstep _ ih =>
      obtain ⟨more, hmore⟩ := ih
      refine ⟨more + 1, ?_⟩
      rw [Recognizer.run, hstep]
      exact hmore

/-- What comes behind a nonterminal may follow it there. -/
theorem Yields.follows_contains {symbols : List Symbol} {kinds : List TokenKind}
    (y : Yields productions symbols kinds) {following : KindSet} {after : TokenKind}
    (hafter : following.contains after = true) {more rest : List TokenKind} {next : TokenKind}
    (hnext : kinds ++ after :: more = next :: rest) :
    ((Tabulated.ofProductions productions).follows symbols following).contains next = true := by
  unfold Tabulated.follows
  cases kinds with
  | nil =>
      obtain ⟨rfl, -⟩ := List.cons.inj hnext
      have hnull : ((Tabulated.ofProductions productions).starts.ofSequence symbols).nullable
          = true := nullable_of_vanishes y.derives
      rw [if_pos hnull]
      exact KindSet.within_union_right _ _ _ hafter
  | cons first others =>
      obtain ⟨rfl, -⟩ := List.cons.inj hnext
      have hin : ((Tabulated.ofProductions productions).starts.ofSequence symbols).first.contains
          first = true := contains_of_begins ⟨_, y.derives⟩
      split
      · exact KindSet.within_union_left _ _ _ hin
      · exact hin

section Complete

variable (h : Augmented productions)
  (hnone : (Tables.ofProductions productions).conflicts = []) {states : List StateId}
  {kernel : List Item}
  (hk : (Automaton.ofProductions (.ofProductions productions)).kernels[top states]? = some kernel)

include h hnone hk

theorem step_shift {state : StateId} {kind : TokenKind}
    (ht : (Automaton.ofProductions (.ofProductions productions)).target (top states)
      (.terminal kind) = some state) {kinds : List TokenKind} (hkinds : kinds ≠ []) :
    (facing states (kind :: kinds)).step productions (Tables.ofProductions productions)
      = .next (facing (state :: states) kinds) := by
  have haction := Tables.ofProductions_candidate h.valid hk hnone (.shift ht)
  obtain ⟨next, more, rfl⟩ := List.exists_cons_of_ne_nil hkinds
  simp only [Recognizer.step, facing, List.headD_cons, haction, Recognizer.shift, List.tail_cons]

/-- A production read to its end is replaced by its head, in front of a kind
that may follow. -/
theorem step_reduce {rule : Nat} {p : Production} (hp : productions[rule]? = some p)
    (hrule : rule ≠ 0) {following : KindSet}
    (hmem : (⟨rule, p.body.length⟩, following) ∈
      Tables.items (.ofProductions productions) (top states))
    {after : TokenKind} (hafter : following.contains after = true) {below pushed : List StateId}
    (hstates : states = pushed ++ below) (hpushed : pushed.length = p.body.length)
    {kernel' : List Item}
    (hk' : (Automaton.ofProductions (.ofProductions productions)).kernels[top below]?
      = some kernel')
    {state : StateId} (ht : (Automaton.ofProductions (.ofProductions productions)).target
      (top below) (.nonTerminal p.head) = some state) (more : List TokenKind) :
    (facing states (after :: more)).step productions (Tables.ofProductions productions)
      = .next (facing (state :: below) (after :: more)) := by
  have hend : (Tabulated.ofProductions productions).remaining ⟨rule, p.body.length⟩ = [] := by
    rw [remaining_tabulated hp, List.drop_length]
  have haction := Tables.ofProductions_candidate h.valid hk hnone (.finish hmem hend hafter)
  rw [finish, if_neg hrule] at haction
  have hgoto := Tables.ofProductions_goto h.valid hk' p.head
  rw [ht] at hgoto
  have hlen : p.body.length ≤ states.length := by
    rw [hstates, List.length_append, hpushed]
    exact Nat.le_add_right _ _
  have hdrop : states.drop p.body.length = below := by
    rw [hstates, List.drop_left' hpushed]
  simp only [Recognizer.step, facing, List.headD_cons, haction, hp, Option.bind_some,
    Recognizer.reduce, hlen, if_true, hdrop, hgoto, Option.map_some]

end Complete

/-- Where the symbol behind a dot leads, with the item past it. -/
theorem Augmented.advance (h : Augmented productions) {state : StateId} {kernel : List Item}
    (hk : (Automaton.ofProductions (.ofProductions productions)).kernels[state]? = some kernel)
    {item : Item} {following : KindSet}
    (hmem : (item, following) ∈ Tables.items (.ofProductions productions) state)
    {symbol : Symbol} {rest : List Symbol}
    (hrem : (Tabulated.ofProductions productions).remaining item = symbol :: rest) :
    ∃ target reached known,
      (Automaton.ofProductions (.ofProductions productions)).target state symbol = some target ∧
      (Automaton.ofProductions (.ofProductions productions)).kernels[target]? = some reached ∧
      (item.next, known) ∈ Tables.items (.ofProductions productions) target ∧
      following.Within known := by
  have hhead : ((Tabulated.ofProductions productions).remaining item).head? = some symbol := by
    rw [hrem]
    rfl
  obtain ⟨target, reached, ht, -, hreached⟩ :=
    h.complete.exists_target hk (mem_stateItems_of_mem hk hmem) hhead
  obtain ⟨known, hknown, hle⟩ :=
    Lookaheads.ofAutomaton_sent sound_tabulated h.complete hk hmem hhead ht
  exact ⟨target, reached, known, ht, hreached, mem_closure.2 (.inl hknown), hle⟩

/-- The driver follows a derivation. With an item in the topmost state, and
in front of kinds that the symbols behind its dot derive and a kind that may
follow it, the driver reads the kinds and has the item read to its end. -/
theorem Yields.reaches (h : Augmented productions)
    (hnone : (Tables.ofProductions productions).conflicts = []) {symbols : List Symbol}
    {kinds : List TokenKind} (y : Yields productions symbols kinds) {states : List StateId}
    {kernel : List Item}
    (hk : (Automaton.ofProductions (.ofProductions productions)).kernels[top states]? = some kernel)
    {rule dot : Nat} {following : KindSet}
    (hmem : (⟨rule, dot⟩, following) ∈ Tables.items (.ofProductions productions) (top states))
    (hrem : (Tabulated.ofProductions productions).remaining ⟨rule, dot⟩ = symbols)
    {after : TokenKind} (hafter : following.contains after = true) (more : List TokenKind) :
    ∃ pushed reached known, pushed.length = symbols.length ∧
      Reaches productions (facing states (kinds ++ after :: more))
        (facing (pushed ++ states) (after :: more)) ∧
      (Automaton.ofProductions (.ofProductions productions)).kernels[top (pushed ++ states)]?
        = some reached ∧
      (⟨rule, dot + symbols.length⟩, known) ∈
        Tables.items (.ofProductions productions) (top (pushed ++ states)) ∧
      known.contains after = true := by
  induction y generalizing states kernel rule dot following after more with
  | nil => exact ⟨[], kernel, following, rfl, .refl, hk, hmem, hafter⟩
  | @terminal kind symbols kinds _ ih =>
      obtain ⟨state, reached, known, ht, hreached, hnext, hle⟩ := h.advance hk hmem hrem
      have hstep := step_shift h hnone hk ht (List.append_ne_nil_of_right_ne_nil kinds (List.cons_ne_nil after more))
      obtain ⟨pushed, kernel', known', hlen, hreaches, hk', hmem', hafter'⟩ :=
        @ih (state :: states) _ hreached _ _ _ hnext (remaining_next hrem) _ (hle after hafter) more
      refine ⟨pushed ++ [state], kernel', known', ?_, ?_, ?_, ?_, hafter'⟩
      · rw [List.length_append, hlen]
        rfl
      · rw [List.append_assoc]
        exact .head hstep hreaches
      · rwa [List.append_assoc]
      · rw [List.append_assoc, List.length_cons, Nat.add_comm symbols.length, ← Nat.add_assoc]
        exact hmem'
  | @nonTerminal inner p hp symbols front back _ rest ihbody ihrest =>
      obtain ⟨next, others, hothers⟩ : ∃ next others, back ++ after :: more = next :: others :=
        List.exists_cons_of_ne_nil (by simp)
      -- the production of the nonterminal is in the state, and is read to its end
      obtain ⟨known, hpredicted, hle⟩ := closure_closed sound_tabulated
        (Lookaheads.ofAutomaton_sound sound_tabulated (top states)) hmem hrem
        ((getElem?_tabulated inner).trans hp) rfl
      have hbehind := hle next (rest.follows_contains hafter hothers)
      have hbody : (Tabulated.ofProductions productions).remaining ⟨inner, 0⟩ = p.body := by
        rw [remaining_tabulated hp, List.drop_zero]
      obtain ⟨pushed, kernel', known', hlen, hreaches, hk', hmem', hnext'⟩ :=
        ihbody hk hpredicted hbody hbehind others
      -- its body gives way to its head
      have hinner : inner ≠ 0 := by
        rintro rfl
        obtain rfl := Option.some.inj (h.getElem?_zero.symm.trans hp)
        exact (h.ne_of_remaining hrem).1 rfl
      obtain ⟨state, reached, known'', ht, hreached, hitem, hle''⟩ := h.advance hk hmem hrem
      rw [Nat.zero_add] at hmem'
      have hstep := step_reduce h hnone hk' hp hinner hmem' hnext' rfl hlen hk ht others
      -- and the symbols behind it are read
      obtain ⟨pushed', kernel'', known''', hlen', hreaches', hk'', hmem'', hafter'⟩ :=
        @ihrest (state :: states) _ hreached _ _ _ hitem (remaining_next hrem) _
          (hle'' after hafter) more
      refine ⟨pushed' ++ [state], kernel'', known''', ?_, ?_, ?_, ?_, hafter'⟩
      · rw [List.length_append, hlen']
        rfl
      · rw [List.append_assoc, List.append_assoc, hothers]
        rw [hothers] at hreaches'
        exact hreaches.trans (.head hstep hreaches')
      · rwa [List.append_assoc]
      · rw [List.append_assoc, List.length_cons, Nat.add_comm symbols.length, ← Nat.add_assoc]
        exact hmem''

/-- The driver accepts a program in front of the end of input. -/
theorem Yields.accepted (h : Augmented productions)
    (hnone : (Tables.ofProductions productions).conflicts = []) {kinds : List TokenKind}
    (y : Yields productions [.nonTerminal .program] kinds) (more : List TokenKind) :
    ∃ fuel, (Recognizer.start (kinds ++ .endOfInput :: more)).run productions
      (Tables.ofProductions productions) fuel = some true := by
  obtain ⟨following, hmem, hend⟩ :=
    Lookaheads.ofAutomaton_start sound_tabulated h.complete.start
  have hrem : (Tabulated.ofProductions productions).remaining ⟨0, 0⟩ = [.nonTerminal .program] :=
    remaining_tabulated h.getElem?_zero 0
  obtain ⟨pushed, kernel, known, -, hreaches, hk, hmem', hknown⟩ :=
    @Yields.reaches _ h hnone _ _ y [] _ h.complete.start _ _ _ (mem_closure.2 (.inl hmem)) hrem _
      hend more
  have hdone : (Tabulated.ofProductions productions).remaining ⟨0, 1⟩ = [] :=
    remaining_tabulated h.getElem?_zero 1
  have haction := Tables.ofProductions_candidate h.valid hk hnone (.finish hmem' hdone hknown)
  have hrun : (facing (pushed ++ []) (.endOfInput :: more)).run productions
      (Tables.ofProductions productions) 1 = some true := by
    rw [Recognizer.run, Recognizer.step]
    simp only [facing, List.headD_cons, haction, finish, if_true]
  exact hreaches.run hrun

-- ============================================================ the tables

/-- The construction of the tables comes to an end: each of its loops, taken
without a bound on the rounds, ends with what the tables are made from. -/
structure Constructed (productions : List Production) : Prop where
  starts : Rests (Starts.addAll productions) .nothing (Tabulated.ofProductions productions).starts
  /-- the loop that predicts, for any kernel with sets of kinds -/
  predictions : ∀ kernel : List (Item × KindSet), (∀ entry ∈ kernel, entry.2.Sound) →
    Rests (Predictions.spread (.ofProductions productions))
      (Predictions.fromKernel (.ofProductions productions) kernel)
      (Predictions.ofKernel (.ofProductions productions) kernel)
  states : Automaton.Explores (.ofProductions productions) ⟨#[[⟨0, 0⟩]], #[]⟩
    (.ofProductions (.ofProductions productions))
  lookaheads : Rests
    (Lookaheads.sendAll (.ofProductions productions) (.ofProductions (.ofProductions productions)))
    (.initial (.ofProductions (.ofProductions productions)))
    (Tables.lookaheads (.ofProductions productions))

/-- What stands in front of the first end of input. -/
theorem takeWhile_front {kinds : List TokenKind} (h : .endOfInput ∉ kinds)
    (more : List TokenKind) :
    (kinds ++ .endOfInput :: more).takeWhile (· != .endOfInput) = kinds := by
  rw [List.takeWhile_append_of_pos fun kind hkind => bne_iff_ne.2 (ne_of_mem_of_not_mem hkind h)]
  exact List.append_nil kinds

theorem Augmented.constructed (h : Augmented productions) : Constructed productions where
  starts := Starts.ofProductions_rests productions
  predictions _ hk := Predictions.ofKernel_rests sound_tabulated hk
  states := Automaton.ofProductions_explores h.valid
  lookaheads := Lookaheads.ofAutomaton_rests sound_tabulated

/-- Table construction comes to an end for productions with a start of their
own. If it met no conflict, the driver accepts kinds just when those in front
of the first end of input are generated from the productions. -/
theorem accepts_iff_generated (h : Augmented productions) :
    Constructed productions ∧ ((Tables.ofProductions productions).conflicts = [] →
      ∀ kinds more, .endOfInput ∉ kinds →
        ((∃ fuel, (Recognizer.start (kinds ++ .endOfInput :: more)).run productions
            (Tables.ofProductions productions) fuel = some true) ↔
          kinds ∈ (generated productions).language)) := by
  refine ⟨h.constructed, fun hnone kinds more hkinds => ?_⟩
  rw [mem_generated]
  constructor
  · rintro ⟨fuel, hrun⟩
    have hend : .endOfInput ∈ kinds ++ .endOfInput :: more := by simp
    obtain ⟨read, more', heq, hread, hyields⟩ := (Reading.start hend).run h hend hrun
    have hcut : kinds = read := by
      rw [← takeWhile_front hkinds more, heq, takeWhile_front hread]
    rw [hcut]
    exact hyields
  · intro y
    exact y.accepted h hnone more

/-- Nothing but nested parentheses. -/
def parentheses : List Production :=
  [⟨.accept, [.nonTerminal .program]⟩,
   ⟨.program, [.terminal .leftParen, .nonTerminal .program, .terminal .rightParen]⟩,
   ⟨.program, []⟩]

/-- Their tables have no conflict, and show that a pair is generated. -/
theorem accepts_parentheses :
    Augmented parentheses ∧ (Tables.ofProductions parentheses).conflicts = [] ∧
      [.leftParen, .rightParen] ∈ (generated parentheses).language := by
  have h : Augmented parentheses := ⟨rfl, by decide⟩
  have hnone : (Tables.ofProductions parentheses).conflicts = [] := by decide +kernel
  have hrun : (Recognizer.start [.leftParen, .rightParen, .endOfInput]).run parentheses
      (.ofProductions parentheses) 6 = some true := by decide +kernel
  exact ⟨h, hnone, ((accepts_iff_generated h).2 hnone [.leftParen, .rightParen] []
    (by decide)).1 ⟨6, hrun⟩⟩

end BoardScript.Grammar
