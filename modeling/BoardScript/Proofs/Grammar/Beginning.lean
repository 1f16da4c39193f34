/-
The table of starts is exact. A nonterminal is said to be empty just when it
can be rewritten to nothing, and to begin with a kind just when it can be
rewritten to a form with the kind in front; the rest of the form need not be
rewritable to kinds at all. The same holds of what is made out of the table
for sequences of symbols (`starts_exact`).

One half is an induction on the rounds: an entry only ever says what a
production justifies (`justified_starts`). The other is an induction on the
rewriting: no step of it adds to how a form can start (`le_of_produces`),
since the table is closed under the productions.
-/
import BoardScript.Proofs.Grammar.First
import BoardScript.Proofs.Grammar.Generated

namespace BoardScript.Grammar

open Ranked Starts

variable {productions : List Production}

/-- The symbols can be rewritten to nothing. -/
def Vanishes (productions : List Production) (symbols : List Symbol) : Prop :=
  (generated productions).Derives (symbols.map sign) []

/-- The symbols can be rewritten to a form that begins with a kind. -/
def Begins (productions : List Production) (symbols : List Symbol) (kind : TokenKind) : Prop :=
  ∃ rest, (generated productions).Derives (symbols.map sign) (.terminal kind :: rest)

theorem Vanishes.append {a b : List Symbol} (ha : Vanishes productions a)
    (hb : Vanishes productions b) : Vanishes productions (a ++ b) := by
  unfold Vanishes
  rw [List.map_append]
  exact derives_append ha hb

theorem Begins.append {a : List Symbol} {kind : TokenKind} (h : Begins productions a kind)
    (b : List Symbol) : Begins productions (a ++ b) kind := by
  obtain ⟨rest, hrest⟩ := h
  refine ⟨rest ++ b.map sign, ?_⟩
  rw [List.map_append]
  exact hrest.append_right (b.map sign)

theorem Begins.behind {a b : List Symbol} {kind : TokenKind} (ha : Vanishes productions a)
    (h : Begins productions b kind) : Begins productions (a ++ b) kind := by
  obtain ⟨rest, hrest⟩ := h
  refine ⟨rest, ?_⟩
  rw [List.map_append]
  exact derives_append ha hrest

-- ======================================================= what is computed

/-- What is said of how some symbols start can be derived. -/
structure Justified (productions : List Production) (symbols : List Symbol) (start : Start) :
    Prop where
  vanishes : start.nullable = true → Vanishes productions symbols
  begins : ∀ kind, start.first.contains kind = true → Begins productions symbols kind

namespace Justified

theorem nothing (symbols : List Symbol) : Justified productions symbols .nothing :=
  ⟨fun h => by simp [Start.nothing] at h, fun kind h => by simp [Start.nothing] at h⟩

theorem join {symbols : List Symbol} {a b : Start} (ha : Justified productions symbols a)
    (hb : Justified productions symbols b) : Justified productions symbols (a.join b) := by
  refine ⟨fun h => ?_, fun kind h => ?_⟩
  · simp only [Start.join, Bool.or_eq_true] at h
    exact h.elim ha.vanishes hb.vanishes
  · simp only [Start.join, KindSet.contains_union, Bool.or_eq_true] at h
    exact h.elim (ha.begins kind) (hb.begins kind)

/-- The head of a production starts as its body does. -/
theorem head {p : Production} (hp : p ∈ productions) {start : Start}
    (h : Justified productions p.body start) :
    Justified productions [.nonTerminal p.head] start := by
  have hstep := produces_production hp
  refine ⟨fun hnull => hstep.trans_derives (h.vanishes hnull), fun kind hkind => ?_⟩
  obtain ⟨rest, hrest⟩ := h.begins kind hkind
  exact ⟨rest, hstep.trans_derives hrest⟩

/-- If the entries are justified, what is made of them for a sequence is. -/
theorem ofSequence {starts : Starts}
    (h : ∀ n, Justified productions [.nonTerminal n] (starts.of n)) (symbols : List Symbol) :
    Justified productions symbols (starts.ofSequence symbols) := by
  induction symbols with
  | nil => exact ⟨fun _ => .refl _, fun kind hkind => by simp [Starts.ofSequence] at hkind⟩
  | cons symbol rest ih =>
      cases symbol with
      | terminal kind =>
          refine ⟨fun h => by simp [Starts.ofSequence] at h, fun other hother => ?_⟩
          obtain rfl : kind = other := by simpa [Starts.ofSequence] using hother
          exact ⟨rest.map sign, .refl _⟩
      | nonTerminal n =>
          rw [Starts.ofSequence]
          dsimp only
          split
          · next hnull =>
              -- the nonterminal can be empty: what is behind it counts too
              have hempty := (h n).vanishes hnull
              refine ⟨fun hrest => hempty.append (ih.vanishes hrest), fun kind hkind => ?_⟩
              rw [KindSet.contains_union, Bool.or_eq_true] at hkind
              rcases hkind with hkind | hkind
              · exact ((h n).begins kind hkind).append rest
              · exact .behind hempty (ih.begins kind hkind)
          · exact ⟨fun h => by simp at h, fun kind hkind => ((h n).begins kind hkind).append rest⟩

end Justified

/-- Every entry of the table can be derived. -/
theorem justified_starts (n : NonTerminal) :
    Justified productions [.nonTerminal n] ((Starts.ofProductions productions).of n) :=
  ofProductions_all (P := fun n start => Justified productions [.nonTerminal n] start)
    (fun _ => .nothing _)
    (fun hall p hp => (hall p.head).join (.head hp (.ofSequence hall p.body))) n

-- ======================================================= what is derived

/-- How a sequence starts that has another one behind it. -/
def Start.before (a b : Start) : Start :=
  if a.nullable then ⟨a.first.union b.first, b.nullable⟩ else a

theorem Start.before_le {a a' b b' : Start} (ha : le a a') (hb : le b b') :
    le (a.before b) (a'.before b') := by
  unfold Start.before
  by_cases hnull : a.nullable = true
  · rw [if_pos hnull, if_pos (ha.2 hnull)]
    refine ⟨KindSet.union_within (ha.1.trans (KindSet.within_union_left _ _))
      (hb.1.trans (KindSet.within_union_right _ _)), hb.2⟩
  · rw [if_neg hnull]
    refine ⟨?_, fun h => absurd h hnull⟩
    split
    · exact ha.1.trans (KindSet.within_union_left _ _)
    · exact ha.1

theorem Starts.ofSequence_append (starts : Starts) (a b : List Symbol) :
    starts.ofSequence (a ++ b) = (starts.ofSequence a).before (starts.ofSequence b) := by
  induction a with
  | nil =>
      show starts.ofSequence b = _
      simp [Start.before, Starts.ofSequence, KindSet.union, KindSet.empty]
  | cons symbol a ih =>
      cases symbol with
      | terminal kind => rfl
      | nonTerminal n =>
          rw [List.cons_append, Starts.ofSequence, Starts.ofSequence, ih]
          dsimp only
          by_cases hn : (starts.of n).nullable = true
          · rw [if_pos hn, if_pos hn]
            by_cases ha : (starts.ofSequence a).nullable = true
            · simp [Start.before, ha, KindSet.union, Nat.or_assoc]
            · simp [Start.before, ha]
          · rw [if_neg hn, if_neg hn]
            rfl

theorem Starts.ofSequence_single (starts : Starts) (n : NonTerminal) :
    starts.ofSequence [.nonTerminal n] = starts.of n := by
  rw [Starts.ofSequence]
  dsimp only
  split
  · next h => simp [Starts.ofSequence, KindSet.union, KindSet.empty, ← h]
  · next h => simp [← Bool.not_eq_true _ ▸ h]

/-- A step of rewriting adds nothing to how a form can start. -/
theorem le_of_produces {u v : List Sign} (h : (generated productions).Produces u v) :
    le ((Starts.ofProductions productions).ofSequence (v.map ofSign))
      ((Starts.ofProductions productions).ofSequence (u.map ofSign)) := by
  obtain ⟨p, hp, front, back, rfl, rfl⟩ := exists_of_produces h
  have hbody : le ((Starts.ofProductions productions).ofSequence ((p.body.map sign).map ofSign))
      ((Starts.ofProductions productions).ofSequence [.nonTerminal p.head]) := by
    rw [map_ofSign_sign, Starts.ofSequence_single]
    exact ofProductions_closed hp
  simp only [List.map_append, Starts.ofSequence_append]
  exact Start.before_le (Start.before_le (le_refl _) hbody) (le_refl _)

/-- Nor does rewriting. -/
theorem le_of_derives {u v : List Sign} (h : (generated productions).Derives u v) :
    le ((Starts.ofProductions productions).ofSequence (v.map ofSign))
      ((Starts.ofProductions productions).ofSequence (u.map ofSign)) := by
  induction h with
  | refl => exact le_refl _
  | tail _ hstep ih => exact le_trans (le_of_produces hstep) ih

/-- What can be rewritten to nothing is said to be empty. -/
theorem nullable_of_vanishes {symbols : List Symbol} (h : Vanishes productions symbols) :
    ((Starts.ofProductions productions).ofSequence symbols).nullable = true := by
  have hle := le_of_derives h
  rw [map_ofSign_sign] at hle
  exact hle.2 rfl

/-- What can be rewritten to begin with a kind is said to begin with it. -/
theorem contains_of_begins {symbols : List Symbol} {kind : TokenKind}
    (h : Begins productions symbols kind) :
    ((Starts.ofProductions productions).ofSequence symbols).first.contains kind = true := by
  obtain ⟨rest, hrest⟩ := h
  have hle := le_of_derives hrest
  rw [map_ofSign_sign] at hle
  exact hle.1 kind (by simp [ofSign, Starts.ofSequence])

-- ============================================================== exactness

theorem nullable_iff (productions : List Production) (symbols : List Symbol) :
    ((Starts.ofProductions productions).ofSequence symbols).nullable = true ↔
      Vanishes productions symbols :=
  ⟨(Justified.ofSequence justified_starts symbols).vanishes, nullable_of_vanishes⟩

theorem contains_iff (productions : List Production) (symbols : List Symbol) (kind : TokenKind) :
    ((Starts.ofProductions productions).ofSequence symbols).first.contains kind = true ↔
      Begins productions symbols kind :=
  ⟨(Justified.ofSequence justified_starts symbols).begins kind, contains_of_begins⟩

/-- The table of starts is found by going round, without a bound, until a
round adds nothing. Of each nonterminal it says exactly whether that can be
rewritten to nothing and which kinds a form can begin with that it can be
rewritten to; and so does what is made out of the table for any sequence of
symbols. The sets have no other members than kinds. -/
theorem starts_exact (productions : List Production) :
    Rests (Starts.addAll productions) Starts.nothing (Starts.ofProductions productions) ∧
      (∀ n, (((Starts.ofProductions productions).of n).nullable = true ↔
          Vanishes productions [.nonTerminal n]) ∧
        ((Starts.ofProductions productions).of n).first.Sound ∧
        ∀ kind, ((Starts.ofProductions productions).of n).first.contains kind = true ↔
          Begins productions [.nonTerminal n] kind) ∧
      ∀ symbols, (((Starts.ofProductions productions).ofSequence symbols).nullable = true ↔
          Vanishes productions symbols) ∧
        ((Starts.ofProductions productions).ofSequence symbols).first.Sound ∧
        ∀ kind, ((Starts.ofProductions productions).ofSequence symbols).first.contains kind = true ↔
          Begins productions symbols kind := by
  have hsound := (ofProductions_settled productions).2.1
  refine ⟨ofProductions_rests productions, fun n => ?_, fun symbols => ?_⟩
  · rw [← Starts.ofSequence_single]
    exact ⟨nullable_iff productions _, sound_ofSequence hsound _,
      contains_iff productions _⟩
  · exact ⟨nullable_iff productions symbols, sound_ofSequence hsound symbols,
      contains_iff productions symbols⟩

end BoardScript.Grammar
