/-
The states of the automaton. Reading a symbol in a state leads to the
kernel of all items that had the symbol behind their dot
(`mem_successors`). Exploration starts at the item about to read
production zero and follows every such move.

Kernels are kept in one order without repetition, so different kernels
are different sets of items, and there are only so many of those. That is
why exploration always finishes before its bound: at the end every state
has its moves, and each leads to the state with the kernel it should
(`ofProductions_complete`), as if there were no bound
(`ofProductions_explores`).
-/
import BoardScript.Proofs.Grammar.Closure
import Mathlib.Data.Finset.Powerset
import Mathlib.Data.List.Nodup
import Mathlib.Algebra.BigOperators.Group.List.Basic

namespace BoardScript.Grammar

open Ranked

-- ====================================================== ordered item lists

namespace Item

theorem le_antisymm {a b : Item} (hab : a.le b = true) (hba : b.le a = true) : a = b := by
  obtain ⟨r, d⟩ := a
  obtain ⟨r', d'⟩ := b
  simp only [Item.le, Bool.or_eq_true, Bool.and_eq_true, decide_eq_true_eq, beq_iff_eq] at hab hba
  simp only [Item.mk.injEq]
  omega

theorem le_trans {a b c : Item} (hab : a.le b = true) (hbc : b.le c = true) :
    a.le c = true := by
  simp only [Item.le, Bool.or_eq_true, Bool.and_eq_true, decide_eq_true_eq, beq_iff_eq] at *
  omega

theorem le_total {a b : Item} (h : a.le b = false) : b.le a = true := by
  simp only [Item.le, Bool.or_eq_false_iff, Bool.and_eq_false_iff, decide_eq_false_iff_not,
    beq_eq_false_iff_ne, Bool.or_eq_true, Bool.and_eq_true, decide_eq_true_eq, beq_iff_eq] at *
  omega

end Item

/-- Items in order, none twice. -/
def Ordered (items : List Item) : Prop := items.Pairwise fun a b => a.le b = true ∧ a ≠ b

theorem mem_insertItem {item other : Item} {items : List Item} :
    other ∈ insertItem item items ↔ other = item ∨ other ∈ items := by
  induction items with
  | nil => simp [insertItem]
  | cons first rest ih =>
      unfold insertItem
      split
      · next h => subst h; simp
      · split
        · simp
        · rw [List.mem_cons, ih, List.mem_cons]
          exact or_left_comm

theorem ordered_insertItem (item : Item) {items : List Item} (h : Ordered items) :
    Ordered (insertItem item items) := by
  induction items with
  | nil => simp [insertItem, Ordered]
  | cons first rest ih =>
      obtain ⟨hfirst, hrest⟩ := List.pairwise_cons.1 h
      unfold insertItem
      split
      · exact h
      · next hne =>
          split
          · next hle =>
              refine List.pairwise_cons.2 ⟨fun other ho => ?_, h⟩
              rcases List.mem_cons.1 ho with rfl | ho
              · exact ⟨hle, hne⟩
              · obtain ⟨hle', hne'⟩ := hfirst other ho
                refine ⟨Item.le_trans hle hle', fun e => ?_⟩
                subst e
                exact hne' (Item.le_antisymm hle' hle)
          · next hnot =>
              refine List.pairwise_cons.2 ⟨fun other ho => ?_, ih hrest⟩
              rcases mem_insertItem.1 ho with rfl | ho
              · exact ⟨Item.le_total (by simpa using hnot), fun e => hne e.symm⟩
              · exact hfirst other ho

/-- Ordered lists of the same items are the same list. -/
theorem Ordered.ext {a b : List Item} (ha : Ordered a) (hb : Ordered b)
    (h : ∀ item, item ∈ a ↔ item ∈ b) : a = b := by
  have hperm : a.Perm b := (List.perm_ext_iff_of_nodup (ha.imp fun h => h.2)
    (hb.imp fun h => h.2)).2 h
  exact hperm.eq_of_pairwise (fun _ _ _ _ hab hba => Item.le_antisymm hab.1 hba.1) ha hb

-- ============================================================ successors

/-- The items of the state with a kernel. -/
def stateItems (g : Tabulated) (kernel : List Item) : List Item :=
  (closure g (kernel.map fun item => (item, .empty))).map (·.1)

theorem mem_stateItems {g : Tabulated} (hg : sound g.starts) {kernel : List Item} {item : Item} :
    item ∈ stateItems g kernel ↔ item ∈ kernel ∨
      ∃ p, g.productions[item.rule]? = some p ∧ item.dot = 0 ∧ Predicted g kernel p.head := by
  have hk : ∀ entry ∈ kernel.map fun item => (item, KindSet.empty), entry.2.Sound := by
    intro entry he
    obtain ⟨_, _, rfl⟩ := List.mem_map.1 he
    exact KindSet.sound_empty
  have hmap : (kernel.map fun item => (item, KindSet.empty)).map Prod.fst = kernel := by
    rw [List.map_map]
    exact List.map_id' kernel
  have hitems : (∃ following, (item, following) ∈ closure g _) ↔ _ := mem_closure_items hg hk
  rw [hmap] at hitems
  rw [← hitems, stateItems, List.mem_map]
  constructor
  · rintro ⟨⟨i, s⟩, h, rfl⟩
    exact ⟨s, h⟩
  · rintro ⟨s, h⟩
    exact ⟨(item, s), h, rfl⟩

/-- What one item adds to the moves found so far. -/
def advance (g : Tabulated) (acc : List (Symbol × List Item)) (item : Item) :
    List (Symbol × List Item) :=
  match g.remaining item with
  | [] => acc
  | symbol :: _ =>
      match acc.lookup symbol with
      | none => acc ++ [(symbol, [item.next])]
      | some _ => acc.map fun (s, reached) =>
          if s = symbol then (s, insertItem item.next reached) else (s, reached)

theorem successors_eq (g : Tabulated) (kernel : List Item) :
    successors g kernel = (stateItems g kernel).foldl (advance g) [] := rfl

/-- The moves found after looking at `seen`: one for each symbol that stood
behind a dot, to all the items that had it there. -/
structure Gathered (g : Tabulated) (seen : List Item) (acc : List (Symbol × List Item)) :
    Prop where
  keys : (acc.map Prod.fst).Nodup
  ordered : ∀ move ∈ acc, Ordered move.2
  mem : ∀ move ∈ acc, ∀ i, i ∈ move.2 ↔
    ∃ j ∈ seen, (g.remaining j).head? = some move.1 ∧ i = j.next
  origin : ∀ move ∈ acc, ∃ j ∈ seen, (g.remaining j).head? = some move.1
  covers : ∀ j ∈ seen, ∀ symbol, (g.remaining j).head? = some symbol →
    symbol ∈ acc.map Prod.fst

theorem lookup_eq_none_iff_keys {β : Type} {l : List (Symbol × β)} {symbol : Symbol} :
    l.lookup symbol = none ↔ symbol ∉ l.map Prod.fst := by
  rw [List.lookup_eq_none_iff]
  simp only [List.mem_map, not_exists, not_and, bne_iff_ne, ne_eq]
  exact ⟨fun h x hx e => h x hx e.symm, fun h x hx e => h x hx e.symm⟩

/-- With one entry a key, looking up finds what is there. -/
theorem lookup_eq_some_iff_mem {β : Type} {l : List (Symbol × β)} (h : (l.map Prod.fst).Nodup)
    {symbol : Symbol} {x : β} : l.lookup symbol = some x ↔ (symbol, x) ∈ l := by
  induction l with
  | nil => simp
  | cons entry l ih =>
      obtain ⟨key, y⟩ := entry
      rw [List.map_cons, List.nodup_cons] at h
      rw [List.lookup_cons, List.mem_cons]
      by_cases hk : symbol = key
      · subst hk
        have hnot : (symbol, x) ∉ l := fun hm => h.1 (List.mem_map.2 ⟨_, hm, rfl⟩)
        simp [hnot, eq_comm]
      · have hb : (symbol == key) = false := by simpa using hk
        rw [hb]
        simp [ih h.2, hk]

theorem advance_nil {g : Tabulated} {item : Item} (h : g.remaining item = [])
    (acc : List (Symbol × List Item)) : advance g acc item = acc := by
  unfold advance
  rw [h]

theorem advance_new {g : Tabulated} {item : Item} {symbol : Symbol} {rest : List Symbol}
    (h : g.remaining item = symbol :: rest) {acc : List (Symbol × List Item)}
    (hlook : acc.lookup symbol = none) :
    advance g acc item = acc ++ [(symbol, [item.next])] := by
  unfold advance
  rw [h]
  simp only [hlook]

theorem advance_known {g : Tabulated} {item : Item} {symbol : Symbol} {rest : List Symbol}
    (h : g.remaining item = symbol :: rest) {acc : List (Symbol × List Item)}
    {known : List Item} (hlook : acc.lookup symbol = some known) :
    advance g acc item = acc.map fun move =>
      if move.1 = symbol then (move.1, insertItem item.next move.2) else move := by
  unfold advance
  rw [h]
  simp only [hlook]

/-- One more item seen: it alone may be the one asked for. -/
theorem exists_seen {P : Item → Prop} {seen : List Item} {item : Item} :
    (∃ j ∈ seen ++ [item], P j) ↔ (∃ j ∈ seen, P j) ∨ P item := by
  simp only [List.mem_append, List.mem_singleton, or_and_right, exists_or, exists_eq_left]

namespace Gathered

variable {g : Tabulated} {seen : List Item} {acc : List (Symbol × List Item)} {item : Item}
  {symbol : Symbol}

/-- An item with nothing behind its dot adds no move. -/
theorem skip (h : Gathered g seen acc) (hrem : g.remaining item = []) :
    Gathered g (seen ++ [item]) acc := by
  refine ⟨h.keys, h.ordered, fun move hm i => ?_, fun move hm => ?_, fun j hj symbol hs => ?_⟩
  · rw [h.mem move hm, exists_seen, hrem]
    simp
  · exact exists_seen.2 (.inl (h.origin move hm))
  · rcases List.mem_append.1 hj with hj | hj
    · exact h.covers j hj symbol hs
    · rw [List.mem_singleton.1 hj, hrem] at hs
      cases hs

/-- A symbol that stood behind no dot yet gets a move to the item alone. -/
theorem push (h : Gathered g seen acc) (hhead : (g.remaining item).head? = some symbol)
    (hnew : symbol ∉ acc.map Prod.fst) :
    Gathered g (seen ++ [item]) (acc ++ [(symbol, [item.next])]) := by
  refine ⟨?_, fun move hm => ?_, fun move hm i => ?_, fun move hm => ?_, fun j hj other hs => ?_⟩
  · rw [List.map_append, List.nodup_append]
    refine ⟨h.keys, by simp, fun a ha b hb e => ?_⟩
    obtain rfl : b = symbol := by simpa using hb
    exact hnew (e ▸ ha)
  · rcases List.mem_append.1 hm with hm | hm
    · exact h.ordered move hm
    · rw [List.mem_singleton.1 hm]
      exact List.pairwise_singleton _ _
  · rw [exists_seen, hhead]
    rcases List.mem_append.1 hm with hm | hm
    · have hne : symbol ≠ move.1 := fun e => hnew (e ▸ List.mem_map_of_mem hm)
      rw [h.mem move hm]
      simp [hne]
    · -- the new move holds the item only: no item seen had the symbol
      rw [List.mem_singleton.1 hm]
      have hnone : ¬ ∃ j ∈ seen, (g.remaining j).head? = some symbol ∧ i = j.next := by
        rintro ⟨j, hj, hjs, -⟩
        exact hnew (h.covers j hj symbol hjs)
      simp [hnone]
  · rw [exists_seen]
    rcases List.mem_append.1 hm with hm | hm
    · exact .inl (h.origin move hm)
    · rw [List.mem_singleton.1 hm]
      exact .inr hhead
  · rw [List.map_append, List.mem_append]
    rcases List.mem_append.1 hj with hj | hj
    · exact .inl (h.covers j hj other hs)
    · rw [List.mem_singleton.1 hj, hhead] at hs
      simp [Option.some.inj hs]

/-- A symbol that has a move gets the item into what that leads to. -/
theorem insert (h : Gathered g seen acc) (hhead : (g.remaining item).head? = some symbol)
    (hknown : symbol ∈ acc.map Prod.fst) :
    Gathered g (seen ++ [item]) (acc.map fun move =>
      if move.1 = symbol then (move.1, insertItem item.next move.2) else move) := by
  have hkeys : (acc.map fun move => if move.1 = symbol then
      (move.1, insertItem item.next move.2) else move).map Prod.fst = acc.map Prod.fst := by
    rw [List.map_map]
    refine List.map_congr_left fun move _ => ?_
    by_cases e : move.1 = symbol <;> simp [e]
  refine ⟨hkeys ▸ h.keys, fun move hm => ?_, fun move hm i => ?_, fun move hm => ?_,
    fun j hj other hs => ?_⟩
  · obtain ⟨old, ho, rfl⟩ := List.mem_map.1 hm
    split
    · exact ordered_insertItem _ (h.ordered _ ho)
    · exact h.ordered _ ho
  · obtain ⟨old, ho, rfl⟩ := List.mem_map.1 hm
    rw [exists_seen, hhead]
    split
    · next e =>
        rw [mem_insertItem, h.mem old ho, or_comm]
        simp [e]
    · next e =>
        rw [h.mem old ho]
        simp [Ne.symm e]
  · obtain ⟨old, ho, rfl⟩ := List.mem_map.1 hm
    refine exists_seen.2 (.inl ?_)
    split
    · exact h.origin old ho
    · exact h.origin old ho
  · rw [hkeys]
    rcases List.mem_append.1 hj with hj | hj
    · exact h.covers j hj other hs
    · rw [List.mem_singleton.1 hj, hhead] at hs
      exact Option.some.inj hs ▸ hknown

end Gathered

theorem gathered_advance {g : Tabulated} {seen : List Item} {acc : List (Symbol × List Item)}
    (h : Gathered g seen acc) (item : Item) :
    Gathered g (seen ++ [item]) (advance g acc item) := by
  cases hrem : g.remaining item with
  | nil =>
      rw [advance_nil hrem]
      exact h.skip hrem
  | cons symbol rest =>
      have hhead : (g.remaining item).head? = some symbol := by rw [hrem]; rfl
      cases hlook : acc.lookup symbol with
      | none =>
          rw [advance_new hrem hlook]
          exact h.push hhead (lookup_eq_none_iff_keys.1 hlook)
      | some known =>
          rw [advance_known hrem hlook]
          refine h.insert hhead (by_contra fun hno => ?_)
          rw [lookup_eq_none_iff_keys.2 hno] at hlook
          cases hlook

theorem gathered_successors (g : Tabulated) (kernel : List Item) :
    Gathered g (stateItems g kernel) (successors g kernel) := by
  rw [successors_eq]
  have hnone : Gathered g [] [] := ⟨by simp, by simp, by simp, by simp, by simp⟩
  exact foldl_done hnone (fun item h => gathered_advance h item) (stateItems g kernel)

/-- Reading a symbol leads to all items that had it behind their dot. -/
theorem mem_successors {g : Tabulated} {kernel reached : List Item} {symbol : Symbol}
    (h : (symbol, reached) ∈ successors g kernel) {item : Item} :
    item ∈ reached ↔
      ∃ j ∈ stateItems g kernel, (g.remaining j).head? = some symbol ∧ item = j.next :=
  (gathered_successors g kernel).mem _ h item

/-- A symbol leads on only where it stands behind a dot. -/
theorem exists_of_successor {g : Tabulated} {kernel reached : List Item} {symbol : Symbol}
    (h : (symbol, reached) ∈ successors g kernel) :
    ∃ j ∈ stateItems g kernel, (g.remaining j).head? = some symbol :=
  (gathered_successors g kernel).origin _ h

-- =========================================================== exploration

/-- The kernels that reading symbols leads to, from the start on. -/
inductive Reached (g : Tabulated) : List Item → Prop
  | start : Reached g [⟨0, 0⟩]
  | move {kernel reached : List Item} {symbol : Symbol} (h : Reached g kernel)
      (hmove : (symbol, reached) ∈ successors g kernel) : Reached g reached

/-- An item of a production that there is, its dot not past the end. -/
def Item.Valid (g : Tabulated) (item : Item) : Prop :=
  ∃ p, g.productions[item.rule]? = some p ∧ item.dot ≤ p.body.length

theorem Tabulated.body_eq {g : Tabulated} {rule : Nat} {p : Production}
    (h : g.productions[rule]? = some p) : g.body rule = p.body := by
  rw [Tabulated.body, h]
  rfl

theorem Item.valid_of_head? {g : Tabulated} {item : Item} {symbol : Symbol}
    (h : (g.remaining item).head? = some symbol) : item.next.Valid g := by
  unfold Tabulated.remaining at h
  cases hp : g.productions[item.rule]? with
  | none =>
      rw [Tabulated.body, hp] at h
      simp at h
  | some p =>
      rw [Tabulated.body_eq hp, List.head?_drop] at h
      exact ⟨p, hp, (List.getElem?_eq_some_iff.1 h).1⟩

/-- Kernels reached are ordered lists of items that there are. -/
theorem Reached.ordered_valid {g : Tabulated} (hstart : Item.Valid g ⟨0, 0⟩) {kernel : List Item}
    (h : Reached g kernel) : Ordered kernel ∧ ∀ item ∈ kernel, item.Valid g := by
  cases h with
  | start =>
      refine ⟨List.pairwise_singleton _ _, fun item hi => ?_⟩
      rw [List.mem_singleton.1 hi]
      exact hstart
  | @move kernel _ symbol _ hmove =>
      refine ⟨(gathered_successors g kernel).ordered _ hmove, fun item hi => ?_⟩
      obtain ⟨j, -, hj, rfl⟩ := (mem_successors hmove).1 hi
      exact Item.valid_of_head? hj

theorem valid_of_mem_stateItems {g : Tabulated} (hg : sound g.starts) {kernel : List Item}
    (hv : ∀ item ∈ kernel, item.Valid g) {item : Item} (h : item ∈ stateItems g kernel) :
    item.Valid g := by
  rcases (mem_stateItems hg).1 h with h | ⟨p, hp, hdot, -⟩
  · exact hv item h
  · exact ⟨p, hp, hdot ▸ Nat.zero_le _⟩

-- ------------------------------------------------- how many there can be

/-- All items. -/
def Tabulated.items (g : Tabulated) : List Item :=
  g.productions.toList.zipIdx.flatMap fun (p, rule) =>
    (List.range (p.body.length + 1)).map fun dot => ⟨rule, dot⟩

theorem Tabulated.mem_items {g : Tabulated} {item : Item} (h : item.Valid g) :
    item ∈ g.items := by
  obtain ⟨p, hp, hdot⟩ := h
  refine List.mem_flatMap.2 ⟨(p, item.rule), ?_, ?_⟩
  · rw [List.mem_zipIdx_iff_getElem?, Array.getElem?_toList]
    exact hp
  · exact List.mem_map.2 ⟨item.dot, List.mem_range.2 (Nat.lt_succ_of_le hdot), rfl⟩

theorem Tabulated.length_items (g : Tabulated) : g.items.length = g.itemCount := by
  calc g.items.length
      = (g.productions.toList.zipIdx.map fun entry => entry.1.body.length + 1).sum := by
        simp only [Tabulated.items, List.length_flatMap, List.length_map, List.length_range]
    _ = ((g.productions.toList.zipIdx.map Prod.fst).map fun p => p.body.length + 1).sum := by
        rw [List.map_map]
        rfl
    _ = g.itemCount := by
        rw [List.zipIdx_map_fst, List.sum_eq_foldl, List.foldl_map]
        rfl

/-- Different kernels are different sets of items, so there are at most as
many of them as there are sets. -/
theorem kernels_bounded {g : Tabulated} {kernels : List (List Item)} (hnodup : kernels.Nodup)
    (h : ∀ kernel ∈ kernels, Ordered kernel ∧ ∀ item ∈ kernel, item.Valid g) :
    kernels.length ≤ 2 ^ g.itemCount := by
  classical
  have hinj : (kernels.map List.toFinset).Nodup := by
    refine List.Nodup.map_on (fun a ha b hb e => ?_) hnodup
    refine (h a ha).1.ext (h b hb).1 fun item => ?_
    rw [← List.mem_toFinset, e, List.mem_toFinset]
  calc kernels.length = (kernels.map List.toFinset).toFinset.card := by
        rw [List.toFinset_card_of_nodup hinj, List.length_map]
    _ ≤ g.items.toFinset.powerset.card := by
        refine Finset.card_le_card fun s hs => ?_
        obtain ⟨kernel, hk, rfl⟩ := List.mem_map.1 (List.mem_toFinset.1 hs)
        refine Finset.mem_powerset.2 fun item hi => ?_
        exact List.mem_toFinset.2
          (Tabulated.mem_items ((h kernel hk).2 item (List.mem_toFinset.1 hi)))
    _ = 2 ^ g.items.toFinset.card := Finset.card_powerset _
    _ ≤ 2 ^ g.itemCount := by
        rw [← g.length_items]
        exact Nat.pow_le_pow_right (by decide) (List.toFinset_card_le _)

namespace Automaton

/-- A move as computed, and the same with the number of its state. -/
def Leads (kernels : Array (List Item)) (move : Symbol × List Item) (numbered : Symbol × StateId) :
    Prop :=
  numbered.1 = move.1 ∧ kernels[numbered.2]? = some move.2

/-- The state of the exploration after some steps. -/
structure Explored (g : Tabulated) (a : Automaton) : Prop where
  start : a.kernels[0]? = some [⟨0, 0⟩]
  nodup : a.kernels.toList.Nodup
  reached : ∀ kernel ∈ a.kernels, Reached g kernel
  size_le : a.moves.size ≤ a.kernels.size
  moves : ∀ {state kernel}, a.kernels[state]? = some kernel → state < a.moves.size →
    List.Forall₂ (Leads a.kernels) (successors g kernel) (a.moves.getD state [])

/-- One array of kernels extends another. -/
def Extends (kernels more : Array (List Item)) : Prop :=
  ∀ {state : StateId} {kernel : List Item}, kernels[state]? = some kernel →
    more[state]? = some kernel

theorem Extends.leads {kernels more : Array (List Item)} (h : Extends kernels more)
    {moves : List (Symbol × List Item)} {row : List (Symbol × StateId)}
    (hl : List.Forall₂ (Leads kernels) moves row) : List.Forall₂ (Leads more) moves row :=
  hl.imp fun _ _ hm => ⟨hm.1, h hm.2⟩

/-- Kernels found are kept, the new one included, and none comes twice. -/
theorem intern_spec {kernels : Array (List Item)} (hnodup : kernels.toList.Nodup)
    (kernel : List Item) :
    let result := intern kernels kernel
    result.1.toList.Nodup ∧ Extends kernels result.1 ∧ kernels.size ≤ result.1.size ∧
      result.1[result.2]? = some kernel ∧ ∀ k ∈ result.1, k ∈ kernels ∨ k = kernel := by
  cases hfind : kernels.findIdx? (· == kernel) with
  | some state =>
      obtain ⟨hlt, heq, -⟩ := Array.findIdx?_eq_some_iff_getElem.1 hfind
      have hintern : intern kernels kernel = (kernels, state) := by unfold intern; rw [hfind]
      rw [hintern]
      refine ⟨hnodup, fun h => h, Nat.le_refl _, ?_, fun k hk => .inl hk⟩
      rw [Array.getElem?_eq_getElem hlt, eq_of_beq heq]
  | none =>
      have hnot : kernel ∉ kernels := by
        intro hmem
        simpa using Array.findIdx?_eq_none_iff.1 hfind kernel hmem
      have hintern : intern kernels kernel = (kernels.push kernel, kernels.size) := by
        unfold intern
        rw [hfind]
      rw [hintern]
      refine ⟨?_, fun {state k} h => ?_, by simp, by simp, fun k hk => ?_⟩
      · simp only [Array.toList_push, List.nodup_append, hnodup, List.mem_singleton, true_and]
        refine ⟨List.nodup_singleton _, fun a ha b hb e => hnot ?_⟩
        rw [← hb, ← e]
        exact Array.mem_toList_iff.1 ha
      · rw [Array.getElem?_push, if_neg, h]
        intro e
        rw [e] at h
        simp at h
      · simpa using hk

/-- Numbers the state that one more move leads to. -/
def number (acc : Array (List Item) × List (Symbol × StateId)) (move : Symbol × List Item) :
    Array (List Item) × List (Symbol × StateId) :=
  ((intern acc.1 move.2).1, acc.2 ++ [(move.1, (intern acc.1 move.2).2)])

/-- What numbering the moves `done` makes of the kernels: they are kept, and
those that the moves lead to are added. -/
structure Numbered (kernels : Array (List Item)) (done : List (Symbol × List Item))
    (acc : Array (List Item) × List (Symbol × StateId)) : Prop where
  nodup : acc.1.toList.Nodup
  kept : Extends kernels acc.1
  size_le : kernels.size ≤ acc.1.size
  origin : ∀ k ∈ acc.1, k ∈ kernels ∨ ∃ symbol, (symbol, k) ∈ done
  leads : List.Forall₂ (Leads acc.1) done acc.2

theorem Numbered.number {kernels : Array (List Item)} {done : List (Symbol × List Item)}
    {acc : Array (List Item) × List (Symbol × StateId)} (h : Numbered kernels done acc)
    (move : Symbol × List Item) : Numbered kernels (done ++ [move]) (number acc move) := by
  obtain ⟨hnodup, hext, hsize, hget, hmem⟩ := intern_spec h.nodup move.2
  refine ⟨hnodup, fun hk => hext (h.kept hk), Nat.le_trans h.size_le hsize, fun k hk => ?_,
    List.rel_append (hext.leads h.leads) (.cons ⟨rfl, hget⟩ .nil)⟩
  rcases hmem k hk with hk | rfl
  · exact (h.origin k hk).imp_right fun ⟨symbol, hs⟩ => ⟨symbol, by simp [hs]⟩
  · exact .inr ⟨move.1, by simp⟩

/-- What finding the moves of one state does. -/
theorem expand_spec (g : Tabulated) {a : Automaton} (kernel : List Item)
    (hnodup : a.kernels.toList.Nodup) :
    ∃ row, (a.expand g kernel).moves = a.moves.push row ∧
      Numbered a.kernels (successors g kernel) ((a.expand g kernel).kernels, row) := by
  have hnone : Numbered a.kernels [] (a.kernels, []) :=
    ⟨hnodup, fun h => h, Nat.le_refl _, fun k hk => .inl hk, .nil⟩
  exact ⟨_, rfl, foldl_done hnone (fun move h => h.number move) (successors g kernel)⟩

theorem explored_expand {g : Tabulated} {a : Automaton} (h : Explored g a) {kernel : List Item}
    (hk : a.kernels[a.moves.size]? = some kernel) : Explored g (a.expand g kernel) := by
  obtain ⟨row, hrow, hn⟩ := expand_spec g kernel h.nodup
  have hlt : a.moves.size < a.kernels.size := (Array.getElem?_eq_some_iff.1 hk).1
  refine ⟨hn.kept h.start, hn.nodup, fun k hk' => ?_, ?_, fun {state k} hget hstate => ?_⟩
  · rcases hn.origin k hk' with hk' | ⟨symbol, hk'⟩
    · exact h.reached k hk'
    · exact .move (h.reached kernel (Array.mem_of_getElem? hk)) hk'
  · rw [hrow, Array.size_push]
    exact Nat.le_trans hlt hn.size_le
  · rw [hrow, Array.size_push] at hstate
    rw [hrow, Array.getD_eq_getD_getElem?]
    rcases Nat.lt_succ_iff_lt_or_eq.1 hstate with hold | hnew
    · -- a state that had its moves before
      have hget' : a.kernels[state]? = some k := by
        have hlt' : state < a.kernels.size := Nat.lt_trans hold hlt
        rw [Array.getElem?_eq_getElem hlt', ← hn.kept (Array.getElem?_eq_getElem hlt'), hget]
      have hmoves := h.moves hget' hold
      rw [Array.getD_eq_getD_getElem?] at hmoves
      rw [Array.getElem?_push, if_neg (Nat.ne_of_lt hold)]
      exact Extends.leads hn.kept hmoves
    · subst hnew
      rw [hn.kept hk] at hget
      obtain rfl := Option.some.inj hget
      simpa using hn.leads

/-- Exploration keeps its invariant, and ends with moves for all states or
with one state more having moves for each unit of fuel. -/
theorem explored_explore {g : Tabulated} (fuel : Nat) {a : Automaton} (h : Explored g a) :
    Explored g (explore g fuel a) ∧
      ((explore g fuel a).moves.size = (explore g fuel a).kernels.size ∨
        (explore g fuel a).moves.size = a.moves.size + fuel) := by
  induction fuel generalizing a with
  | zero => exact ⟨h, .inr rfl⟩
  | succ fuel ih =>
      unfold explore
      cases hk : a.kernels[a.moves.size]? with
      | none =>
          have hge := Array.getElem?_eq_none_iff.1 hk
          exact ⟨h, .inl (Nat.le_antisymm h.size_le hge)⟩
      | some kernel =>
          obtain ⟨h', hend⟩ := ih (explored_expand h hk)
          refine ⟨h', hend.imp_right fun e => ?_⟩
          obtain ⟨row, hrow, -⟩ := expand_spec g kernel h.nodup
          rw [e, hrow, Array.size_push]
          omega

/-- Every state has its moves, and they lead where they should. -/
structure Complete (g : Tabulated) (a : Automaton) : Prop where
  start : a.kernels[0]? = some [⟨0, 0⟩]
  reached : ∀ kernel ∈ a.kernels, Reached g kernel
  moves : ∀ {state kernel}, a.kernels[state]? = some kernel →
    List.Forall₂ (Leads a.kernels) (successors g kernel) (a.moves.getD state [])

/-- Exploration from the start finds all states before its bound. -/
theorem ofProductions_explored {g : Tabulated} (hstart : Item.Valid g ⟨0, 0⟩) :
    Explored g (ofProductions g) ∧ (ofProductions g).moves.size = (ofProductions g).kernels.size := by
  have hinit : Explored g ⟨#[[⟨0, 0⟩]], #[]⟩ := by
    refine ⟨rfl, List.nodup_singleton _, fun kernel hk => ?_, Nat.zero_le _, fun _ h => ?_⟩
    · obtain rfl : kernel = [⟨0, 0⟩] := by simpa using hk
      exact .start
    · exact absurd h (Nat.not_lt_zero _)
  obtain ⟨h, hend⟩ := explored_explore (Nat.pow 2 g.itemCount) hinit
  have hbound : (ofProductions g).kernels.size ≤ 2 ^ g.itemCount := by
    have := kernels_bounded h.nodup fun kernel hk =>
      (h.reached kernel (Array.mem_toList_iff.1 hk)).ordered_valid hstart
    rwa [Array.length_toList] at this
  refine ⟨h, ?_⟩
  rcases hend with e | e
  · exact e
  · refine Nat.le_antisymm h.size_le (Nat.le_trans hbound ?_)
    rw [ofProductions, e]
    exact Nat.le_add_left _ _

theorem ofProductions_complete {g : Tabulated} (hstart : Item.Valid g ⟨0, 0⟩) :
    Complete g (ofProductions g) := by
  obtain ⟨h, hall⟩ := ofProductions_explored hstart
  exact ⟨h.start, h.reached, fun hget => h.moves hget
    (hall ▸ (Array.getElem?_eq_some_iff.1 hget).1)⟩

/-- Expanding one state after the other until every one has its moves,
however many there come to be. -/
inductive Explores (g : Tabulated) : Automaton → Automaton → Prop
  | done {a : Automaton} (h : a.kernels[a.moves.size]? = none) : Explores g a a
  | expand {a b : Automaton} {kernel : List Item} (h : a.kernels[a.moves.size]? = some kernel)
      (rest : Explores g (a.expand g kernel) b) : Explores g a b

/-- Exploration that leaves no state without moves is the one without a
bound. -/
theorem explores_explore {g : Tabulated} (fuel : Nat) {a : Automaton}
    (h : (explore g fuel a).kernels[(explore g fuel a).moves.size]? = none) :
    Explores g a (explore g fuel a) := by
  induction fuel generalizing a with
  | zero => exact .done h
  | succ fuel ih =>
      unfold explore at h ⊢
      cases hk : a.kernels[a.moves.size]? with
      | none => exact .done hk
      | some kernel =>
          simp only [hk] at h
          exact .expand hk (ih h)

theorem ofProductions_explores {g : Tabulated} (hstart : Item.Valid g ⟨0, 0⟩) :
    Explores g ⟨#[[⟨0, 0⟩]], #[]⟩ (ofProductions g) := by
  refine explores_explore _ (Array.getElem?_eq_none_iff.2 ?_)
  exact Nat.le_of_eq (ofProductions_explored hstart).2.symm

variable {g : Tabulated} {a : Automaton}

theorem exists_move {kernels : Array (List Item)} {moves : List (Symbol × List Item)}
    {row : List (Symbol × StateId)} (h : List.Forall₂ (Leads kernels) moves row)
    {numbered : Symbol × StateId} (hmem : numbered ∈ row) :
    ∃ move ∈ moves, Leads kernels move numbered := by
  induction h with
  | nil => cases hmem
  | cons hm _ ih =>
      rcases List.mem_cons.1 hmem with rfl | hmem
      · exact ⟨_, by simp, hm⟩
      · obtain ⟨move, hmove, hl⟩ := ih hmem
        exact ⟨move, by simp [hmove], hl⟩

theorem exists_numbered {kernels : Array (List Item)} {moves : List (Symbol × List Item)}
    {row : List (Symbol × StateId)} (h : List.Forall₂ (Leads kernels) moves row)
    {move : Symbol × List Item} (hmem : move ∈ moves) :
    ∃ numbered ∈ row, Leads kernels move numbered := by
  induction h with
  | nil => cases hmem
  | cons hm _ ih =>
      rcases List.mem_cons.1 hmem with rfl | hmem
      · exact ⟨_, by simp, hm⟩
      · obtain ⟨numbered, hnum, hl⟩ := ih hmem
        exact ⟨numbered, by simp [hnum], hl⟩

/-- The moves of a state are one for each symbol. -/
theorem Complete.keys (h : Complete g a) {state : StateId} {kernel : List Item}
    (hk : a.kernels[state]? = some kernel) : ((a.moves.getD state []).map Prod.fst).Nodup := by
  have hsame : ∀ {moves : List (Symbol × List Item)} {row : List (Symbol × StateId)},
      List.Forall₂ (Leads a.kernels) moves row → row.map Prod.fst = moves.map Prod.fst := by
    intro moves row hl
    induction hl with
    | nil => rfl
    | cons hm _ ih => rw [List.map_cons, List.map_cons, ih, hm.1]
  rw [hsame (h.moves hk)]
  exact (gathered_successors g kernel).keys

/-- Where a state goes on reading a symbol: to the state of the kernel that
the symbol leads to. -/
theorem Complete.target_eq_some (h : Complete g a) {state target : StateId} {kernel : List Item}
    (hk : a.kernels[state]? = some kernel) {symbol : Symbol}
    (ht : a.target state symbol = some target) :
    ∃ reached, (symbol, reached) ∈ successors g kernel ∧ a.kernels[target]? = some reached := by
  have hmem := (lookup_eq_some_iff_mem (h.keys hk)).1 ht
  obtain ⟨⟨s, reached⟩, hmove, hs, hget⟩ := exists_move (h.moves hk) hmem
  obtain rfl : symbol = s := hs
  exact ⟨reached, hmove, hget⟩

/-- A symbol behind a dot has somewhere to go. -/
theorem Complete.exists_target (h : Complete g a) {state : StateId} {kernel : List Item}
    (hk : a.kernels[state]? = some kernel) {item : Item} (hi : item ∈ stateItems g kernel)
    {symbol : Symbol} (hs : (g.remaining item).head? = some symbol) :
    ∃ target reached, a.target state symbol = some target ∧
      (symbol, reached) ∈ successors g kernel ∧ a.kernels[target]? = some reached := by
  obtain ⟨move, hmove, rfl⟩ :=
    List.mem_map.1 ((gathered_successors g kernel).covers item hi symbol hs)
  obtain ⟨numbered, hnum, hlead⟩ := exists_numbered (h.moves hk) hmove
  refine ⟨numbered.2, move.2, ?_, hmove, hlead.2⟩
  refine (lookup_eq_some_iff_mem (h.keys hk)).2 ?_
  rw [← hlead.1]
  exact hnum

end Automaton

end BoardScript.Grammar
