/-
What the table of starts is good for. It is closed under the productions:
whatever the body of a production can begin with, its head can begin with,
and a head with a body that can be empty can be empty. It is also the
least such table, so any table closed in the same way bounds it from
above; a bound written down once is then enough to know what a
nonterminal cannot begin with.

Going round ends at this table of itself (`ofProductions_rests`): the bound
on the rounds is not what ends it.
-/
import BoardScript.Proofs.Grammar.Settle

namespace BoardScript.Grammar

open Ranked

theorem NonTerminal.index_lt (n : NonTerminal) : n.index < NonTerminal.count := by
  cases n <;> decide

theorem NonTerminal.index_inj {a b : NonTerminal} (h : a.index = b.index) : a = b := by
  cases a <;> cases b <;> first | rfl | exact absurd h (by decide)

namespace Starts

/-- One entry for each nonterminal. -/
def Full (starts : Starts) : Prop := starts.size = NonTerminal.count

theorem full_nothing : Full nothing := by simp [Full, nothing]

theorem Full.of_le {a b : Starts} (ha : Full a) (h : le a b) : Full b :=
  (size_eq_of_le h).symm.trans ha

/-- The entry of a nonterminal of a full table. -/
theorem getElem?_of {starts : Starts} (h : starts.Full) (n : NonTerminal) :
    starts[n.index]? = some (starts.of n) := by
  have hlt : n.index < starts.size := by rw [h]; exact n.index_lt
  unfold Starts.of
  rw [Array.getD_eq_getD_getElem?, Array.getElem?_eq_getElem hlt, Option.getD_some]

theorem of_modify {starts : Starts} (h : starts.Full) (m n : NonTerminal) (f : Start → Start) :
    Starts.of (starts.modify m.index f) n
      = if n = m then f (starts.of n) else starts.of n := by
  have hn := getElem?_of h n
  unfold Starts.of at hn ⊢
  rw [Array.getD_eq_getD_getElem?, Array.getElem?_modify]
  by_cases hm : n = m
  · subst hm
    rw [if_pos rfl, if_pos rfl, hn]
    rfl
  · rw [if_neg (fun e => hm (NonTerminal.index_inj e.symm)), if_neg hm, hn]
    rfl

theorem sound_of {starts : Starts} (h : sound starts) (n : NonTerminal) :
    (starts.of n).first.Sound := by
  unfold Starts.of
  rw [Array.getD_eq_getD_getElem?]
  cases he : starts[n.index]? with
  | none => exact KindSet.sound_empty
  | some s => exact h s (Array.mem_toList_iff.2 (Array.mem_of_getElem? he))

theorem sound_ofSequence {starts : Starts} (h : sound starts) (symbols : List Symbol) :
    (starts.ofSequence symbols).first.Sound := by
  induction symbols with
  | nil => exact KindSet.sound_empty
  | cons symbol rest ih =>
      cases symbol with
      | terminal kind => exact KindSet.sound_single kind
      | nonTerminal n =>
          rw [ofSequence]
          split
          · exact KindSet.sound_union (sound_of h n) ih
          · exact sound_of h n

/-- What a sequence can start with grows with the table. -/
theorem ofSequence_le {a b : Starts} (h : ∀ n, le (a.of n) (b.of n)) (symbols : List Symbol) :
    le (a.ofSequence symbols) (b.ofSequence symbols) := by
  induction symbols with
  | nil => exact le_refl _
  | cons symbol rest ih =>
      cases symbol with
      | terminal kind => exact le_refl _
      | nonTerminal n =>
          obtain ⟨hfirst, hnull⟩ := h n
          simp only [ofSequence]
          by_cases ha : (a.of n).nullable = true
          · rw [if_pos ha, if_pos (hnull ha)]
            refine ⟨KindSet.union_within (hfirst.trans (KindSet.within_union_left _ _))
              (ih.1.trans (KindSet.within_union_right _ _)), ih.2⟩
          · rw [if_neg ha]
            refine ⟨?_, fun h => by simp at h⟩
            split
            · exact hfirst.trans (KindSet.within_union_left _ _)
            · exact hfirst

theorem join_grows {b : Start} (hb : b.first.Sound) : Grows fun a : Start => a.join b := by
  intro a ha
  refine ⟨KindSet.sound_union ha hb, KindSet.within_union_left _ _, fun h => ?_⟩
  simp [Start.join, h]

theorem le_join_right (a b : Start) : le b (a.join b) := by
  refine ⟨KindSet.within_union_right _ _, fun h => ?_⟩
  simp [Start.join, h]

theorem join_le {a b c : Start} (ha : le a c) (hb : le b c) : le (a.join b) c := by
  refine ⟨KindSet.union_within ha.1 hb.1, fun h => ?_⟩
  simp only [Start.join, Bool.or_eq_true] at h
  exact h.elim ha.2 hb.2

theorem addProduction_grows (p : Production) : Grows fun starts => addProduction starts p :=
  fun starts h => modify_grows (join_grows (sound_ofSequence h p.body)) p.head.index starts h

theorem sound_nothing : sound nothing := by
  intro s hs
  rw [nothing, Array.toList_replicate, List.mem_replicate] at hs
  rw [hs.2]
  exact KindSet.sound_empty

/-- The table of a list of productions is full, sound and settled. -/
theorem ofProductions_settled (productions : List Production) :
    Full (ofProductions productions) ∧ sound (ofProductions productions) ∧
      addAll productions (ofProductions productions) = ofProductions productions := by
  have hgrows : Grows (addAll productions) := foldl_grows fun p _ => addProduction_grows p
  obtain ⟨hsound, hle⟩ := settle_grows hgrows
    (NonTerminal.count * (TokenKind.all.length + 1) + 1) nothing sound_nothing
  refine ⟨full_nothing.of_le hle, hsound, settle_fixed hgrows _ sound_nothing ?_
    (Nat.lt_of_lt_of_le (Nat.lt_succ_self _) (Nat.le_add_left _ _))⟩
  intro b _ hb
  have hlen : b.toList.length = NonTerminal.count := full_nothing.of_le hb
  rw [← hlen]
  refine rank_list_le fun s _ => ?_
  exact Nat.add_le_add (List.length_filter_le _ _) (Bool.toNat_le _)

/-- Going round over the productions comes to rest at the table. -/
theorem ofProductions_rests (productions : List Production) :
    Rests (addAll productions) nothing (ofProductions productions) :=
  rests_settle _ (ofProductions_settled productions).2.2

/-- Whatever the body of a production starts with, its head does. -/
theorem ofProductions_closed {productions : List Production} {p : Production}
    (hp : p ∈ productions) :
    le ((ofProductions productions).ofSequence p.body) ((ofProductions productions).of p.head) := by
  obtain ⟨hfull, hsound, hfixed⟩ := ofProductions_settled productions
  have hstep : addProduction (ofProductions productions) p = ofProductions productions :=
    foldl_fixed (fun q _ => addProduction_grows q) hsound hfixed p hp
  have hof := of_modify hfull p.head p.head
    (·.join ((ofProductions productions).ofSequence p.body))
  rw [if_pos rfl] at hof
  unfold addProduction at hstep
  rw [hstep] at hof
  have hle := le_join_right ((ofProductions productions).of p.head)
    ((ofProductions productions).ofSequence p.body)
  rwa [← hof] at hle

/-- A full table, all entries of which something holds of. -/
structure All (P : NonTerminal → Start → Prop) (starts : Starts) : Prop where
  full : Full starts
  holds : ∀ n, P n (starts.of n)

theorem All.addProduction {P : NonTerminal → Start → Prop} {starts : Starts} (h : starts.All P)
    {p : Production} (hp : P p.head ((starts.of p.head).join (starts.ofSequence p.body))) :
    (starts.addProduction p).All P := by
  refine ⟨by simpa [Full, Starts.addProduction] using h.full, fun n => ?_⟩
  unfold Starts.addProduction
  rw [of_modify h.full]
  split
  · next e =>
      subst e
      exact hp
  · exact h.holds n

/-- Whatever the productions keep holds of all entries. -/
theorem ofProductions_all {productions : List Production} {P : NonTerminal → Start → Prop}
    (nothing : ∀ n, P n .nothing)
    (join : ∀ {starts : Starts}, (∀ n, P n (starts.of n)) → ∀ p ∈ productions,
      P p.head ((starts.of p.head).join (starts.ofSequence p.body)))
    (n : NonTerminal) : P n ((ofProductions productions).of n) := by
  have hround : ∀ starts : Starts, starts.All P → (addAll productions starts).All P :=
    fun starts h => List.foldlRecOn productions Starts.addProduction h
      fun _ hacc p hp => hacc.addProduction (join hacc.holds p hp)
  refine (settle_keeps hround _ ⟨full_nothing, fun n => ?_⟩).holds n
  have hnothing : Starts.nothing.of n = Start.nothing := by
    have := getElem?_of full_nothing n
    rw [Starts.nothing, Array.getElem?_replicate, if_pos n.index_lt] at this
    exact (Option.some.inj this).symm
  rw [hnothing]
  exact nothing n

/-- A table that is closed under the productions bounds the one that is
computed from them. -/
theorem ofProductions_le {productions : List Production} {bound : Starts}
    (closed : ∀ p ∈ productions, le (bound.ofSequence p.body) (bound.of p.head))
    (n : NonTerminal) : le ((ofProductions productions).of n) (bound.of n) :=
  ofProductions_all (P := fun n start => le start (bound.of n))
    (fun n => ⟨fun kind h => by simp [Start.nothing] at h, fun h => by simp [Start.nothing] at h⟩)
    (fun hall p hp => join_le (hall p.head) (le_trans (ofSequence_le hall p.body) (closed p hp))) n

end Starts

end BoardScript.Grammar
