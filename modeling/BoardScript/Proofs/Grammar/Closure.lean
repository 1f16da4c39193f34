/-
What a state predicts. A nonterminal behind a dot predicts all of its
productions, each with the dot in front, and what may follow the
nonterminal there may follow them. Three things are shown of the computed
predictions: the items of the kernel have been followed up
(`ofKernel_kernel`), so have the predicted productions themselves
(`ofKernel_production`), and nothing is predicted that does not have to be
(`ofKernel_all`).

The last is stated for any property of predictions that the rules of
prediction keep. It is used twice, for the nonterminals alone and for
what may follow them.
-/
import BoardScript.Grammar.Automaton
import BoardScript.Proofs.Grammar.First

namespace BoardScript.Grammar

open Ranked

/-- What may come behind a nonterminal when `rest` stands behind it and
`following` behind all of that. -/
def Tabulated.follows (g : Tabulated) (rest : List Symbol) (following : KindSet) : KindSet :=
  if (g.starts.ofSequence rest).nullable then (g.starts.ofSequence rest).first.union following
  else (g.starts.ofSequence rest).first

theorem Tabulated.sound_follows {g : Tabulated} (hg : sound g.starts) (rest : List Symbol)
    {following : KindSet} (h : following.Sound) : (g.follows rest following).Sound := by
  unfold Tabulated.follows
  split
  · exact KindSet.sound_union (Starts.sound_ofSequence hg rest) h
  · exact Starts.sound_ofSequence hg rest

theorem Tabulated.follows_within {g : Tabulated} (rest : List Symbol) {a b : KindSet}
    (h : a.Within b) : (g.follows rest a).Within (g.follows rest b) := by
  unfold Tabulated.follows
  split
  · exact KindSet.union_within (KindSet.within_union_left _ _)
      (h.trans (KindSet.within_union_right _ _))
  · exact .refl _

namespace Predictions

/-- What may follow a nonterminal, if it is predicted. -/
def of (predictions : Predictions) (n : NonTerminal) : Option KindSet :=
  predictions.getD n.index none

/-- One entry for each nonterminal. -/
def Full (predictions : Predictions) : Prop := predictions.size = NonTerminal.count

theorem full_nothing : Full nothing := by simp [Full, nothing]

theorem Full.of_le {a b : Predictions} (ha : Full a) (h : le a b) : Full b :=
  (size_eq_of_le h).symm.trans ha

theorem of_eq_some {predictions : Predictions} {n : NonTerminal} {s : KindSet}
    (h : predictions.of n = some s) : predictions[n.index]? = some (some s) := by
  unfold Predictions.of at h
  rw [Array.getD_eq_getD_getElem?] at h
  cases he : predictions[n.index]? with
  | none => rw [he] at h; cases h
  | some x => rw [he, Option.getD_some] at h; rw [h]

theorem sound_of {predictions : Predictions} (hp : sound predictions) {n : NonTerminal}
    {s : KindSet} (h : predictions.of n = some s) : s.Sound :=
  hp (some s) (Array.mem_toList_iff.2 (Array.mem_of_getElem? (of_eq_some h))) s rfl

/-- A nonterminal is predicted, and at least `s` may follow it. -/
def Has (predictions : Predictions) (n : NonTerminal) (s : KindSet) : Prop :=
  ∃ known, predictions.of n = some known ∧ s.Within known

theorem Has.mono {a b : Predictions} (h : le a b) {n : NonTerminal} {s : KindSet}
    (ha : a.Has n s) : b.Has n s := by
  obtain ⟨known, hk, hs⟩ := ha
  obtain ⟨more, hmore, hle⟩ := exists_le_getElem? h (of_eq_some hk)
  cases more with
  | none => exact hle.elim
  | some more =>
      refine ⟨more, ?_, hs.trans hle⟩
      rw [Predictions.of, Array.getD_eq_getD_getElem?, hmore, Option.getD_some]

-- ======================================================== small steps

theorem of_add {predictions : Predictions} (hfull : predictions.Full) (m n : NonTerminal)
    (s : KindSet) :
    (predictions.add m s).of n
      = if n = m then some ((predictions.of n).elim s (·.union s)) else predictions.of n := by
  have hlt : n.index < predictions.size := by rw [hfull]; exact n.index_lt
  unfold Predictions.of add
  rw [Array.getD_eq_getD_getElem?, Array.getElem?_modify, Array.getD_eq_getD_getElem?,
    Array.getElem?_eq_getElem hlt]
  by_cases hm : n = m
  · subst hm
    rw [if_pos rfl, if_pos rfl, Option.map_some, Option.getD_some, Option.getD_some]
    cases predictions[n.index] <;> rfl
  · rw [if_neg (fun e => hm (NonTerminal.index_inj e.symm)), if_neg hm]

theorem has_add {predictions : Predictions} (hfull : predictions.Full) (n : NonTerminal)
    (s : KindSet) : (predictions.add n s).Has n s := by
  refine ⟨_, by rw [of_add hfull, if_pos rfl], ?_⟩
  cases predictions.of n with
  | none => exact .refl s
  | some known => exact KindSet.within_union_right _ _

theorem add_grows (n : NonTerminal) {s : KindSet} (hs : s.Sound) :
    Grows fun predictions : Predictions => predictions.add n s := by
  refine modify_grows (fun known hk => ?_) n.index
  cases known with
  | none =>
      refine ⟨fun x hx => ?_, trivial⟩
      obtain rfl := Option.some.inj hx
      exact hs
  | some known =>
      refine ⟨fun x hx => ?_, KindSet.within_union_left _ _⟩
      obtain rfl := Option.some.inj hx
      exact KindSet.sound_union (hk known rfl) hs

variable {g : Tabulated}

/-- Following a dot up is adding to the nonterminal behind it. -/
theorem addFrom_nonTerminal (predictions : Predictions) (n : NonTerminal) (rest : List Symbol)
    (following : KindSet) :
    addFrom g predictions (.nonTerminal n :: rest) following
      = predictions.add n (g.follows rest following) := rfl

theorem addFrom_grows (hg : sound g.starts) (remaining : List Symbol) {following : KindSet}
    (hf : following.Sound) :
    Grows fun predictions => addFrom g predictions remaining following := by
  intro predictions hp
  match remaining with
  | [] => exact ⟨hp, Ranked.le_refl _⟩
  | .terminal _ :: _ => exact ⟨hp, Ranked.le_refl _⟩
  | .nonTerminal n :: rest =>
      exact add_grows n (Tabulated.sound_follows hg rest hf) predictions hp

/-- What one production does in a round. -/
def spreadOne (g : Tabulated) (predictions : Predictions) (p : Production) : Predictions :=
  match predictions.of p.head with
  | none => predictions
  | some following => predictions.addFrom g p.body following

theorem spread_eq (predictions : Predictions) :
    spread g predictions = g.productions.toList.foldl (spreadOne g) predictions := by
  rw [Array.foldl_toList]
  rfl

theorem spreadOne_grows (hg : sound g.starts) (p : Production) :
    Grows fun predictions => spreadOne g predictions p := by
  intro predictions hp
  show sound (spreadOne g predictions p) ∧ le predictions (spreadOne g predictions p)
  unfold spreadOne
  cases h : predictions.of p.head with
  | none => exact ⟨hp, Ranked.le_refl _⟩
  | some following => exact addFrom_grows hg p.body (sound_of hp h) predictions hp

-- ======================================================= the predictions

/-- The predictions before the first round. -/
def fromKernel (g : Tabulated) (kernel : List (Item × KindSet)) : Predictions :=
  kernel.foldl (fun acc entry => acc.addFrom g (g.remaining entry.1) entry.2) nothing

theorem sound_nothing : sound nothing := by
  intro s hs
  rw [nothing, Array.toList_replicate, List.mem_replicate] at hs
  rw [hs.2]
  intro x hx
  cases hx

variable {kernel : List (Item × KindSet)}

theorem fromKernel_grows (hg : sound g.starts) (hk : ∀ entry ∈ kernel, entry.2.Sound) :
    sound (fromKernel g kernel) ∧ le nothing (fromKernel g kernel) :=
  foldl_grows (fun entry he => addFrom_grows hg (g.remaining entry.1) (hk entry he))
    nothing sound_nothing

/-- The predictions are full, sound, above the first ones, and settled. -/
theorem ofKernel_settled (hg : sound g.starts) (hk : ∀ entry ∈ kernel, entry.2.Sound) :
    Full (ofKernel g kernel) ∧ sound (ofKernel g kernel) ∧
      le (fromKernel g kernel) (ofKernel g kernel) ∧
      spread g (ofKernel g kernel) = ofKernel g kernel := by
  have hgrows : Grows (spread g) := by
    intro predictions hp
    rw [spread_eq]
    exact foldl_grows (fun p _ => spreadOne_grows hg p) predictions hp
  obtain ⟨hs, hle⟩ := fromKernel_grows hg hk
  obtain ⟨hsound, hle'⟩ := settle_grows hgrows
    (NonTerminal.count * (TokenKind.all.length + 1) + 1) (fromKernel g kernel) hs
  refine ⟨(full_nothing.of_le hle).of_le hle', hsound, hle', settle_fixed hgrows _ hs ?_
    (Nat.lt_of_lt_of_le (Nat.lt_succ_self _) (Nat.le_add_left _ _))⟩
  intro b _ hb
  have hlen : b.toList.length = NonTerminal.count := (full_nothing.of_le hle).of_le hb
  rw [← hlen]
  refine rank_list_le fun s _ => ?_
  cases s with
  | none => exact Nat.zero_le _
  | some s => exact Nat.succ_le_succ (List.length_filter_le _ _)

/-- Following dots up comes to rest at the predictions. -/
theorem ofKernel_rests (hg : sound g.starts) (hk : ∀ entry ∈ kernel, entry.2.Sound) :
    Rests (spread g) (fromKernel g kernel) (ofKernel g kernel) :=
  rests_settle _ (ofKernel_settled hg hk).2.2.2

/-- The nonterminals behind the dots of the kernel are predicted. -/
theorem ofKernel_kernel (hg : sound g.starts) (hk : ∀ entry ∈ kernel, entry.2.Sound)
    {item : Item} {following : KindSet} (hmem : (item, following) ∈ kernel) {n : NonTerminal}
    {rest : List Symbol} (hrem : g.remaining item = .nonTerminal n :: rest) :
    (ofKernel g kernel).Has n (g.follows rest following) := by
  refine Has.mono (ofKernel_settled hg hk).2.2.1 ?_
  have hgrows (entry) (he : entry ∈ kernel) : Grows fun predictions : Predictions =>
      predictions.addFrom g (g.remaining entry.1) entry.2 :=
    addFrom_grows hg (g.remaining entry.1) (hk entry he)
  -- fullness rides along, since only a full table is sure to take an entry
  refine foldl_establishes (I := fun predictions => sound predictions ∧ Full predictions)
    (P := fun predictions => predictions.Has n (g.follows rest following)) hmem
    (fun predictions entry he hp => ?_) (fun predictions entry he hp h => ?_)
    (fun predictions hp => ?_) ⟨sound_nothing, full_nothing⟩
  · obtain ⟨hs, hle⟩ := hgrows entry he predictions hp.1
    exact ⟨hs, hp.2.of_le hle⟩
  · exact h.mono (hgrows entry he predictions hp.1).2
  · show (addFrom g predictions (g.remaining item) following).Has n (g.follows rest following)
    rw [hrem, addFrom_nonTerminal]
    exact has_add hp.2 n _

/-- So are those at the front of predicted productions. -/
theorem ofKernel_production (hg : sound g.starts) (hk : ∀ entry ∈ kernel, entry.2.Sound)
    {p : Production} (hp : p ∈ g.productions) {following : KindSet}
    (hof : (ofKernel g kernel).of p.head = some following) {n : NonTerminal}
    {rest : List Symbol} (hbody : p.body = .nonTerminal n :: rest) :
    (ofKernel g kernel).Has n (g.follows rest following) := by
  obtain ⟨hfull, hs, -, hfixed⟩ := ofKernel_settled hg hk
  rw [spread_eq] at hfixed
  have hone := foldl_fixed (fun q _ => spreadOne_grows hg q) hs hfixed p
    (Array.mem_toList_iff.2 hp)
  unfold spreadOne at hone
  rw [hof, hbody] at hone
  simp only [addFrom_nonTerminal] at hone
  rw [← hone]
  exact has_add hfull n _

/-- A full table of predictions, all of which something holds of. -/
structure All (P : NonTerminal → KindSet → Prop) (predictions : Predictions) : Prop where
  full : Full predictions
  holds : ∀ {n s}, predictions.of n = some s → P n s

section

variable {P : NonTerminal → KindSet → Prop} {predictions : Predictions}

theorem all_nothing : nothing.All P := by
  refine ⟨full_nothing, fun {n s} h => ?_⟩
  rw [Predictions.of, nothing, Array.getD_eq_getD_getElem?, Array.getElem?_replicate,
    if_pos n.index_lt] at h
  cases h

variable (union : ∀ {n a b}, P n a → P n b → P n (a.union b))

include union

theorem All.add (h : predictions.All P) {m : NonTerminal} {s : KindSet} (hm : P m s) :
    (predictions.add m s).All P := by
  refine ⟨by simpa [Full, Predictions.add] using h.full, fun {n t} hof => ?_⟩
  rw [of_add h.full] at hof
  split at hof
  · next e =>
      subst e
      obtain rfl := Option.some.inj hof
      cases hn : predictions.of n with
      | none => exact hm
      | some known => exact union (h.holds hn) hm
  · exact h.holds hof

theorem All.addFrom (h : predictions.All P) {remaining : List Symbol} {following : KindSet}
    (hP : ∀ n rest, remaining = .nonTerminal n :: rest → P n (g.follows rest following)) :
    (predictions.addFrom g remaining following).All P := by
  rcases remaining with _ | ⟨_ | n, rest⟩
  · exact h
  · exact h
  · exact h.add union (hP n rest rfl)

theorem All.spread (h : predictions.All P)
    (fromProduction : ∀ p ∈ g.productions, ∀ following, P p.head following →
      ∀ n rest, p.body = .nonTerminal n :: rest → P n (g.follows rest following)) :
    (spread g predictions).All P := by
  rw [spread_eq]
  refine List.foldlRecOn _ _ h fun acc hacc p hp => ?_
  unfold spreadOne
  cases ho : acc.of p.head with
  | none => exact hacc
  | some following =>
      exact hacc.addFrom union
        (fromProduction p (Array.mem_toList_iff.1 hp) following (hacc.holds ho))

/-- Whatever the rules of prediction keep holds of all predictions. -/
theorem ofKernel_all
    (fromKernel : ∀ entry ∈ kernel, ∀ n rest, g.remaining entry.1 = .nonTerminal n :: rest →
      P n (g.follows rest entry.2))
    (fromProduction : ∀ p ∈ g.productions, ∀ following, P p.head following →
      ∀ n rest, p.body = .nonTerminal n :: rest → P n (g.follows rest following))
    {n : NonTerminal} {s : KindSet} (h : (ofKernel g kernel).of n = some s) : P n s := by
  have hstart : (Predictions.fromKernel g kernel).All P :=
    List.foldlRecOn _ _ all_nothing fun acc hacc entry he => hacc.addFrom union (fromKernel entry he)
  exact (settle_keeps (fun _ h => All.spread union h fromProduction) _ hstart).holds h

end

end Predictions

-- ============================================================== closure

/-- The items of a state: those of the kernel and those predicted. -/
theorem mem_closure {g : Tabulated} {kernel : List (Item × KindSet)} {item : Item}
    {following : KindSet} :
    (item, following) ∈ closure g kernel ↔ (item, following) ∈ kernel ∨
      ∃ p, g.productions[item.rule]? = some p ∧ item.dot = 0 ∧
        (Predictions.ofKernel g kernel).of p.head = some following := by
  unfold closure
  rw [List.mem_append]
  refine or_congr_right ?_
  constructor
  · intro h
    obtain ⟨⟨p, rule⟩, hmem, heq⟩ := List.mem_filterMap.1 h
    obtain ⟨s, hs, he⟩ := Option.map_eq_some_iff.1 heq
    obtain ⟨rfl, rfl⟩ := Prod.mk.inj he
    have hget := (List.mem_zipIdx_iff_getElem? (x := (p, rule))).1 hmem
    rw [Array.getElem?_toList] at hget
    exact ⟨p, hget, rfl, hs⟩
  · rintro ⟨p, hp, hdot, hof⟩
    refine List.mem_filterMap.2 ⟨(p, item.rule), ?_, ?_⟩
    · rw [List.mem_zipIdx_iff_getElem?, Array.getElem?_toList]
      exact hp
    · obtain ⟨rule, dot⟩ := item
      simp only at hdot
      subst hdot
      exact Option.map_eq_some_iff.2 ⟨following, hof, rfl⟩

theorem sound_closure {g : Tabulated} (hg : sound g.starts) {kernel : List (Item × KindSet)}
    (hk : ∀ entry ∈ kernel, entry.2.Sound) : ∀ entry ∈ closure g kernel, entry.2.Sound := by
  intro entry he
  rcases mem_closure.1 he with he | ⟨p, -, -, hof⟩
  · exact hk entry he
  · exact Predictions.sound_of (Predictions.ofKernel_settled hg hk).2.1 hof

/-- The nonterminals that a kernel predicts, whatever may follow them. -/
inductive Predicted (g : Tabulated) (kernel : List Item) : NonTerminal → Prop
  | kernel {item : Item} {n : NonTerminal} {rest : List Symbol} (hmem : item ∈ kernel)
      (hrem : g.remaining item = .nonTerminal n :: rest) : Predicted g kernel n
  | production {p : Production} {n : NonTerminal} {rest : List Symbol} (hp : p ∈ g.productions)
      (hhead : Predicted g kernel p.head) (hbody : p.body = .nonTerminal n :: rest) :
      Predicted g kernel n

theorem Predictions.ofKernel_predicted {g : Tabulated} (hg : sound g.starts)
    {kernel : List (Item × KindSet)} (hk : ∀ entry ∈ kernel, entry.2.Sound) {n : NonTerminal} :
    (∃ s, (Predictions.ofKernel g kernel).of n = some s) ↔
      Predicted g (kernel.map Prod.fst) n := by
  constructor
  · rintro ⟨s, hs⟩
    exact ofKernel_all (P := fun n _ => Predicted g (kernel.map Prod.fst) n) (fun h _ => h)
      (fun entry he _ _ hrem => .kernel (List.mem_map_of_mem he) hrem)
      (fun p hp _ hhead _ _ hbody => .production hp hhead hbody) hs
  · intro h
    induction h with
    | kernel hmem hrem =>
        obtain ⟨entry, he, rfl⟩ := List.mem_map.1 hmem
        obtain ⟨s, hs, -⟩ := ofKernel_kernel hg hk he hrem
        exact ⟨s, hs⟩
    | production hp _ hbody ih =>
        obtain ⟨following, hf⟩ := ih
        obtain ⟨s, hs, -⟩ := ofKernel_production hg hk hp hf hbody
        exact ⟨s, hs⟩

/-- Whether an item belongs to a state does not depend on what may follow
its items. -/
theorem mem_closure_items {g : Tabulated} (hg : sound g.starts)
    {kernel : List (Item × KindSet)} (hk : ∀ entry ∈ kernel, entry.2.Sound) {item : Item} :
    (∃ following, (item, following) ∈ closure g kernel) ↔
      item ∈ kernel.map Prod.fst ∨ ∃ p, g.productions[item.rule]? = some p ∧ item.dot = 0 ∧
        Predicted g (kernel.map Prod.fst) p.head := by
  constructor
  · rintro ⟨following, h⟩
    rcases mem_closure.1 h with h | ⟨p, hp, hdot, hof⟩
    · exact .inl (List.mem_map_of_mem h)
    · exact .inr ⟨p, hp, hdot, (Predictions.ofKernel_predicted hg hk).1 ⟨_, hof⟩⟩
  · rintro (h | ⟨p, hp, hdot, hpred⟩)
    · obtain ⟨⟨i, s⟩, he, rfl⟩ := List.mem_map.1 h
      exact ⟨s, mem_closure.2 (.inl he)⟩
    · obtain ⟨s, hs⟩ := (Predictions.ofKernel_predicted hg hk).2 hpred
      exact ⟨s, mem_closure.2 (.inr ⟨p, hp, hdot, hs⟩)⟩

/-- A nonterminal behind a dot brings its productions into the state, with
at least what follows it there. -/
theorem closure_closed {g : Tabulated} (hg : sound g.starts)
    {kernel : List (Item × KindSet)} (hk : ∀ entry ∈ kernel, entry.2.Sound) {item : Item}
    {following : KindSet} (hmem : (item, following) ∈ closure g kernel) {n : NonTerminal}
    {rest : List Symbol} (hrem : g.remaining item = .nonTerminal n :: rest) {rule : Nat}
    {p : Production} (hp : g.productions[rule]? = some p) (hhead : p.head = n) :
    ∃ known, (⟨rule, 0⟩, known) ∈ closure g kernel ∧ (g.follows rest following).Within known := by
  have hhas : (Predictions.ofKernel g kernel).Has n (g.follows rest following) := by
    rcases mem_closure.1 hmem with hmem | ⟨q, hq, hdot, hof⟩
    · exact Predictions.ofKernel_kernel hg hk hmem hrem
    · refine Predictions.ofKernel_production hg hk (Array.mem_of_getElem? hq) hof ?_
      rw [Tabulated.remaining, Tabulated.body, hq, hdot] at hrem
      exact hrem
  obtain ⟨known, hof, hle⟩ := hhas
  exact ⟨known, mem_closure.2 (.inr ⟨p, hp, rfl, by rw [hhead]; exact hof⟩), hle⟩

end BoardScript.Grammar
