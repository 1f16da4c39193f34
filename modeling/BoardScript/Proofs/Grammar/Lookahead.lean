/-
What may follow an item. The sets sent along the moves of the automaton
settle, and then three things hold of them: the end of input may follow
the start item (`ofAutomaton_start`), what may follow an item of a state
may follow it wherever its next symbol leads (`ofAutomaton_sent`), and
whatever sending keeps holds of every entry (`ofAutomaton_all`).

Sending fills a list of sets that stands beside the kernel of a state, one
set an item. That the two stay in step is part of being sound here, since
a set is added at the place where its item stands in the kernel.
-/
import BoardScript.Proofs.Grammar.States

namespace BoardScript.Grammar

open Ranked

namespace Lookaheads

/-- One set for each item of each kernel. -/
def Fits (a : Automaton) (lookaheads : Lookaheads) : Prop :=
  ∀ state : StateId, lookaheads[state]?.map List.length = a.kernels[state]?.map List.length

/-- The order on lookaheads, for those that fit an automaton. -/
@[reducible] def ranked (a : Automaton) : Ranked Lookaheads := restrict inferInstance (Fits a)

variable {g : Tabulated} {a : Automaton} {lookaheads : Lookaheads}

theorem Fits.length_eq (h : Fits a lookaheads) {state : StateId} {kernel : List Item}
    {sets : List KindSet} (hk : a.kernels[state]? = some kernel)
    (hs : lookaheads[state]? = some sets) : sets.length = kernel.length := by
  have := h state
  rw [hk, hs] at this
  exact Option.some.inj this

theorem Fits.exists_sets (h : Fits a lookaheads) {state : StateId} {kernel : List Item}
    (hk : a.kernels[state]? = some kernel) : ∃ sets, lookaheads[state]? = some sets := by
  have := h state
  rw [hk] at this
  obtain ⟨sets, hs, -⟩ := Option.map_eq_some_iff.1 this
  exact ⟨sets, hs⟩

/-- The sets beside the kernel are those of the state, if there are any. -/
theorem kernel_getD (lookaheads : Lookaheads) (state : StateId) :
    lookaheads.kernel a state = (a.kernels.getD state []).zip (lookaheads[state]?.getD []) := by
  have hsets : lookaheads.getD state [] = lookaheads[state]?.getD [] :=
    Array.getD_eq_getD_getElem?
  rw [kernel, hsets]

theorem kernel_eq {state : StateId} {items : List Item} {sets : List KindSet}
    (hk : a.kernels[state]? = some items) (hs : lookaheads[state]? = some sets) :
    lookaheads.kernel a state = items.zip sets := by
  unfold kernel
  rw [Array.getD_eq_getD_getElem?, hk, Array.getD_eq_getD_getElem?, hs]
  rfl

/-- The items of the kernel with their sets are the items of the kernel. -/
theorem Fits.map_fst (h : Fits a lookaheads) {state : StateId} {items : List Item}
    (hk : a.kernels[state]? = some items) :
    (lookaheads.kernel a state).map Prod.fst = items := by
  obtain ⟨sets, hs⟩ := h.exists_sets hk
  rw [kernel_eq hk hs]
  exact List.map_fst_zip (Nat.le_of_eq (h.length_eq hk hs).symm)

theorem sound_kernel (h : sound lookaheads) (state : StateId) :
    ∀ entry ∈ lookaheads.kernel a state, entry.2.Sound := by
  intro entry he
  unfold kernel at he
  have hmem := (List.of_mem_zip (a := entry.1) (b := entry.2) he).2
  rw [Array.getD_eq_getD_getElem?] at hmem
  cases hs : lookaheads[state]? with
  | none => rw [hs] at hmem; simp at hmem
  | some sets =>
      rw [hs] at hmem
      exact h sets (Array.mem_toList_iff.2 (Array.mem_of_getElem? hs)) _ hmem

-- ======================================================== adding at an item

theorem length_addAt {kernel : List Item} {sets : List KindSet}
    (h : sets.length = kernel.length) (item : Item) (following : KindSet) :
    (addAt kernel item following sets).length = sets.length := by
  unfold addAt
  rw [List.length_map, List.length_zip, h, Nat.min_self]

theorem addAt_grows {kernel : List Item} (item : Item) {following : KindSet}
    (hf : following.Sound) {sets : List KindSet} (hlen : sets.length = kernel.length)
    (hs : sound sets) :
    sound (addAt kernel item following sets) ∧ le sets (addAt kernel item following sets) := by
  induction kernel generalizing sets with
  | nil =>
      obtain rfl : sets = [] := List.length_eq_zero_iff.1 hlen
      exact ⟨hs, .nil⟩
  | cons other kernel ih =>
      cases sets with
      | nil => cases hlen
      | cons known sets =>
          have hknown : known.Sound := hs known (by simp)
          obtain ⟨hs', hle'⟩ := ih (Nat.succ.inj hlen) fun s hm => hs s (by simp [hm])
          have hcons : addAt (other :: kernel) item following (known :: sets)
              = (if other = item then known.union following else known)
                :: addAt kernel item following sets := rfl
          rw [hcons]
          constructor
          · intro s hm
            rcases List.mem_cons.1 hm with rfl | hm
            · split
              · exact KindSet.sound_union hknown hf
              · exact hknown
            · exact hs' s hm
          · refine .cons ?_ hle'
            split
            · exact KindSet.within_union_left _ _
            · exact .refl _

/-- What adding changes nothing about is there already. -/
theorem within_of_addAt_eq {kernel : List Item} {item : Item} {following : KindSet}
    {sets : List KindSet} (hlen : sets.length = kernel.length) (hi : item ∈ kernel)
    (h : addAt kernel item following sets = sets) :
    ∃ known, (item, known) ∈ kernel.zip sets ∧ following.Within known := by
  induction kernel generalizing sets with
  | nil => cases hi
  | cons other kernel ih =>
      cases sets with
      | nil => cases hlen
      | cons known sets =>
          have hcons : (if other = item then known.union following else known)
                :: addAt kernel item following sets = known :: sets := h
          obtain ⟨hhead, htail⟩ := List.cons.inj hcons
          rcases List.mem_cons.1 hi with rfl | hi
          · rw [if_pos rfl] at hhead
            exact ⟨known, by simp, KindSet.within_of_union_eq hhead⟩
          · obtain ⟨known', hmem, hle⟩ := ih (Nat.succ.inj hlen) hi htail
            exact ⟨known', by simp [hmem], hle⟩

theorem addAt_mem {kernel : List Item} {item other : Item} {following s : KindSet}
    {sets : List KindSet} (h : (other, s) ∈ kernel.zip (addAt kernel item following sets)) :
    ∃ known, (other, known) ∈ kernel.zip sets ∧
      (s = known ∨ other = item ∧ s = known.union following) := by
  induction kernel generalizing sets with
  | nil => cases h
  | cons first kernel ih =>
      cases sets with
      | nil => simp [addAt] at h
      | cons known sets =>
          have hcons : addAt (first :: kernel) item following (known :: sets)
              = (if first = item then known.union following else known)
                :: addAt kernel item following sets := rfl
          rw [hcons, List.zip_cons_cons] at h
          rcases List.mem_cons.1 h with h | h
          · obtain ⟨rfl, rfl⟩ := Prod.mk.inj h
            refine ⟨known, by simp, ?_⟩
            split
            · next e => exact .inr ⟨e, rfl⟩
            · exact .inl rfl
          · obtain ⟨known', hmem, hs⟩ := ih h
            exact ⟨known', by simp [hmem], hs⟩

-- ============================================================== sending

/-- What one entry of a state sends. -/
def sendOne (g : Tabulated) (a : Automaton) (state : StateId) (acc : Lookaheads)
    (entry : Item × KindSet) : Lookaheads :=
  match (g.remaining entry.1).head?.bind (a.target state) with
  | none => acc
  | some reached =>
      acc.modify reached (addAt (a.kernels.getD reached []) entry.1.next entry.2)

theorem sendFrom_eq (lookaheads : Lookaheads) (state : StateId) :
    sendFrom g a lookaheads state
      = (closure g (lookaheads.kernel a state)).foldl (sendOne g a state) lookaheads := rfl

theorem fits_modify (h : Fits a lookaheads) (reached : StateId) (item : Item)
    (following : KindSet) :
    Fits a (lookaheads.modify reached (addAt (a.kernels.getD reached []) item following)) := by
  intro state
  rw [Array.getElem?_modify, ← h state]
  split
  · next e =>
      subst e
      cases hs : lookaheads[reached]? with
      | none => rfl
      | some sets =>
          have hlen := h reached
          rw [hs] at hlen
          obtain ⟨items, hk, hl⟩ := Option.map_eq_some_iff.1 hlen.symm
          rw [Option.map_some, Option.map_some, Option.map_some, Array.getD_eq_getD_getElem?, hk,
            Option.getD_some, length_addAt hl.symm]
  · rfl

theorem sendOne_grows {entry : Item × KindSet} (he : entry.2.Sound) (state : StateId) :
    @Grows _ (ranked a) fun acc => sendOne g a state acc entry := by
  intro acc ⟨hs, hfits⟩
  show (sound (sendOne g a state acc entry) ∧ Fits a (sendOne g a state acc entry)) ∧
    le acc (sendOne g a state acc entry)
  unfold sendOne
  cases (g.remaining entry.1).head?.bind (a.target state) with
  | none => exact ⟨⟨hs, hfits⟩, Ranked.le_refl acc⟩
  | some reached =>
      have hgrown := modify_at_grows (i := reached)
        (f := addAt (a.kernels.getD reached []) entry.1.next entry.2) hs fun sets hget hsets => by
          obtain ⟨items, hk, hl⟩ := Option.map_eq_some_iff.1
            ((hfits reached).symm.trans (congrArg _ hget))
          refine addAt_grows _ he ?_ hsets
          rw [Array.getD_eq_getD_getElem?, hk]
          exact hl.symm
      exact ⟨⟨hgrown.1, fits_modify hfits _ _ _⟩, hgrown.2⟩

theorem sendFrom_grows (hg : sound g.starts) (state : StateId) :
    @Grows _ (ranked a) fun acc => sendFrom g a acc state := by
  intro acc hacc
  have hentries := sound_closure hg (sound_kernel (a := a) hacc.1 state)
  exact @foldl_grows _ _ (ranked a) _ _
    (fun entry he => sendOne_grows (hentries entry he) state) acc hacc

theorem sendAll_grows (hg : sound g.starts) : @Grows _ (ranked a) (sendAll g a) :=
  @foldl_grows _ _ (ranked a) _ _ fun state _ => sendFrom_grows hg state

theorem initial_getElem? (state : StateId) :
    (initial a)[state]? = a.kernels[state]?.map fun kernel =>
      kernel.map fun _ => if state = 0 then KindSet.single .endOfInput else .empty := by
  unfold initial
  rw [Array.getElem?_modify, Array.getElem?_map]
  by_cases h : state = 0
  · subst h
    simp only [if_true, Option.map_map]
    congr 1
    funext kernel
    simp
  · rw [if_neg (Ne.symm h), if_neg h]

theorem sound_initial : (ranked a).sound (initial a) := by
  refine ⟨fun sets hs => ?_, fun state => ?_⟩
  · obtain ⟨state, hget⟩ := List.mem_iff_getElem?.1 hs
    rw [Array.getElem?_toList, initial_getElem?] at hget
    obtain ⟨kernel, -, rfl⟩ := Option.map_eq_some_iff.1 hget
    intro s hm
    obtain ⟨_, -, rfl⟩ := List.mem_map.1 hm
    split
    · exact KindSet.sound_single _
    · exact KindSet.sound_empty
  · rw [initial_getElem?]
    cases a.kernels[state]? <;> simp

/-- No more can be added than every kind to every item of a kernel. -/
theorem rank_bounded (h : Fits a lookaheads) :
    rank lookaheads
      ≤ a.kernels.toList.foldl (fun n kernel => n + kernel.length) 0 * TokenKind.all.length := by
  have hlen : lookaheads.toList.map List.length = a.kernels.toList.map List.length := by
    refine List.ext_getElem? fun state => ?_
    rw [List.getElem?_map, List.getElem?_map, Array.getElem?_toList, Array.getElem?_toList]
    exact h state
  have hfold : ∀ (l : List (List Item)) (n : Nat),
      l.foldl (fun n kernel => n + kernel.length) n = n + (l.map List.length).sum := by
    intro l
    induction l with
    | nil => intro n; rfl
    | cons kernel l ih =>
        intro n
        rw [List.foldl_cons, ih, List.map_cons, List.sum_cons]
        omega
  rw [hfold, ← hlen, Nat.zero_add]
  show (lookaheads.toList.map rank).sum ≤ _
  induction lookaheads.toList with
  | nil => simp
  | cons sets l ih =>
      have hsets : rank sets ≤ sets.length * TokenKind.all.length :=
        rank_list_le fun s _ => List.length_filter_le _ _
      rw [List.map_cons, List.sum_cons, List.map_cons, List.sum_cons, Nat.add_mul]
      exact Nat.add_le_add hsets ih

/-- The lookaheads are sound and fit, are above the first ones, and another
round would change nothing. -/
theorem ofAutomaton_settled (hg : sound g.starts) :
    (ranked a).sound (ofAutomaton g a) ∧ le (initial a) (ofAutomaton g a) ∧
      sendAll g a (ofAutomaton g a) = ofAutomaton g a := by
  obtain ⟨hs, hle⟩ := @settle_grows _ (ranked a) _ _ (sendAll_grows hg)
    (a.kernels.toList.foldl (fun n kernel => n + kernel.length) 0 * TokenKind.all.length + 1)
    (initial a) sound_initial
  refine ⟨hs, hle, @settle_fixed _ (ranked a) _ _ (sendAll_grows hg) _ _ _ sound_initial
    (fun b hb _ => rank_bounded hb.2) ?_⟩
  exact Nat.lt_of_lt_of_le (Nat.lt_succ_self _) (Nat.le_add_left _ _)

/-- Sending comes to rest at the lookaheads. -/
theorem ofAutomaton_rests (hg : sound g.starts) :
    Rests (sendAll g a) (initial a) (ofAutomaton g a) :=
  rests_settle _ (ofAutomaton_settled hg).2.2

-- ========================================================= what they hold

theorem ofAutomaton_fits (hg : sound g.starts) : Fits a (ofAutomaton g a) :=
  (ofAutomaton_settled hg).1.2

theorem ofAutomaton_sound (hg : sound g.starts) (state : StateId) :
    ∀ entry ∈ (ofAutomaton g a).kernel a state, entry.2.Sound :=
  sound_kernel (ofAutomaton_settled hg).1.1 state

/-- The end of input may follow the start item. -/
theorem ofAutomaton_start (hg : sound g.starts) (h : a.kernels[0]? = some [⟨0, 0⟩]) :
    ∃ following, (⟨0, 0⟩, following) ∈ (ofAutomaton g a).kernel a 0 ∧
      following.contains .endOfInput = true := by
  obtain ⟨-, hle, -⟩ := ofAutomaton_settled (a := a) hg
  obtain ⟨sets, hs⟩ := (ofAutomaton_fits hg).exists_sets h
  have hfirst : (initial a)[0]? = some [KindSet.single .endOfInput] := by
    rw [initial_getElem?, h]
    rfl
  have hat : le [KindSet.single .endOfInput] sets := getElem?_le hle hfirst hs
  cases hat with
  | cons hhead htail =>
      cases htail
      refine ⟨_, ?_, hhead .endOfInput (by simp)⟩
      rw [kernel_eq h hs]
      simp

/-- What may follow an item of a state may follow it after its next symbol,
in the state that the symbol leads to. -/
theorem ofAutomaton_sent (hg : sound g.starts) (ha : Automaton.Complete g a)
    {state target : StateId} {kernel : List Item} (hk : a.kernels[state]? = some kernel)
    {item : Item} {following : KindSet}
    (hmem : (item, following) ∈ closure g ((ofAutomaton g a).kernel a state)) {symbol : Symbol}
    (hs : (g.remaining item).head? = some symbol) (ht : a.target state symbol = some target) :
    ∃ known, (item.next, known) ∈ (ofAutomaton g a).kernel a target ∧
      following.Within known := by
  obtain ⟨hsound, -, hfixed⟩ := ofAutomaton_settled (a := a) hg
  have hrange : state ∈ List.range a.kernels.size :=
    List.mem_range.2 (Array.getElem?_eq_some_iff.1 hk).1
  have hstate := @foldl_fixed _ _ (ranked a) _ _ (fun s _ => sendFrom_grows hg s) _ hsound hfixed
    state hrange
  have hentries := sound_closure hg (sound_kernel (a := a) hsound.1 state)
  rw [sendFrom_eq] at hstate
  have hone := @foldl_fixed _ _ (ranked a) _ _
    (fun entry he => sendOne_grows (hentries entry he) state) _ hsound hstate _ hmem
  -- the entry sends nothing new to the state reached
  obtain ⟨reached, hmove, hreached⟩ := ha.target_eq_some hk ht
  obtain ⟨sets, hsets⟩ := hsound.2.exists_sets hreached
  have hitem : item.next ∈ reached := by
    refine (mem_successors hmove).2 ⟨item, ?_, hs, rfl⟩
    refine (mem_stateItems hg).2 ?_
    have := (mem_closure_items hg (sound_kernel (a := a) hsound.1 state)).1 ⟨_, hmem⟩
    rwa [hsound.2.map_fst hk] at this
  have hadd : addAt reached item.next following sets = sets := by
    have hat := congrArg (fun l : Lookaheads => l[target]?) hone
    simp only [sendOne, hs, Option.bind_some, ht] at hat
    rw [Array.getElem?_modify, if_pos rfl, hsets, Array.getD_eq_getD_getElem?, hreached] at hat
    exact Option.some.inj hat
  rw [kernel_eq hreached hsets]
  exact within_of_addAt_eq (hsound.2.length_eq hreached hsets) hitem hadd

/-- Something holds of every entry of every state. -/
def All (a : Automaton) (P : Item → KindSet → Prop) (lookaheads : Lookaheads) : Prop :=
  ∀ state, ∀ entry ∈ lookaheads.kernel a state, P entry.1 entry.2

section

variable {P : Item → KindSet → Prop}

theorem all_initial (h : a.kernels[0]? = some [⟨0, 0⟩])
    (start : P ⟨0, 0⟩ (.single .endOfInput)) (empty : ∀ item, P item .empty) :
    All a P (initial a) := by
  intro state entry he
  cases hk : a.kernels[state]? with
  | none =>
      rw [kernel, Array.getD_eq_getD_getElem?, hk] at he
      simp at he
  | some items =>
      have hget := initial_getElem? (a := a) state
      rw [hk, Option.map_some] at hget
      rw [kernel_eq hk hget] at he
      obtain ⟨hi, hs⟩ := List.of_mem_zip (a := entry.1) (b := entry.2) he
      obtain ⟨_, -, hs⟩ := List.mem_map.1 hs
      rw [← hs]
      split
      · next e =>
          subst e
          rw [h] at hk
          obtain rfl := Option.some.inj hk
          rw [List.mem_singleton.1 hi]
          exact start
      · exact empty _

variable (union : ∀ {item s t}, P item s → P item t → P item (s.union t))
  (next : ∀ {item s}, P item s → P item.next s)

include union next

theorem All.sendOne {acc : Lookaheads} (hall : All a P acc) (state : StateId)
    {entry : Item × KindSet} (hentry : P entry.1 entry.2) :
    All a P (sendOne g a state acc entry) := by
  unfold Lookaheads.sendOne
  cases (g.remaining entry.1).head?.bind (a.target state) with
  | none => exact hall
  | some reached =>
      intro other found hf
      rw [kernel_getD, Array.getElem?_modify] at hf
      by_cases e : reached = other
      · subst e
        rw [if_pos rfl] at hf
        cases hs : acc[reached]? with
        | none => rw [hs] at hf; simp at hf
        | some sets =>
            rw [hs, Option.map_some, Option.getD_some] at hf
            obtain ⟨known, hmem, hor⟩ := addAt_mem hf
            have hknown : P found.1 known := by
              refine hall reached (found.1, known) ?_
              rw [kernel_getD, hs]
              exact hmem
            rcases hor with hsame | ⟨hitem, hunion⟩
            · rw [hsame]
              exact hknown
            · rw [hunion]
              refine union hknown ?_
              rw [hitem]
              exact next hentry
      · rw [if_neg e, ← kernel_getD] at hf
        exact hall other found hf

theorem All.sendAll {lookaheads : Lookaheads} (hall : All a P lookaheads)
    (closed : ∀ {kernel}, (∀ entry ∈ kernel, P entry.1 entry.2) →
      ∀ entry ∈ closure g kernel, P entry.1 entry.2) : All a P (sendAll g a lookaheads) := by
  refine List.foldlRecOn _ _ hall fun acc hacc state _ => ?_
  rw [sendFrom_eq]
  exact List.foldlRecOn _ _ hacc fun acc' hacc' entry he =>
    hacc'.sendOne union next state (closed (hacc state) entry he)

/-- Whatever sending keeps holds of every entry. -/
theorem ofAutomaton_all (h : a.kernels[0]? = some [⟨0, 0⟩])
    (start : P ⟨0, 0⟩ (.single .endOfInput)) (empty : ∀ item, P item .empty)
    (closed : ∀ {kernel}, (∀ entry ∈ kernel, P entry.1 entry.2) →
      ∀ entry ∈ closure g kernel, P entry.1 entry.2) (state : StateId) :
    ∀ entry ∈ (ofAutomaton g a).kernel a state, P entry.1 entry.2 :=
  settle_keeps (fun _ hall => All.sendAll union next hall closed) _ (all_initial h start empty) state

end

end Lookaheads

end BoardScript.Grammar
