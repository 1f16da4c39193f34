/-
Fixed points of what can only grow. The facts that the parse tables rest
on (what a nonterminal begins with, what a state predicts, what may follow
an item) are all found by going round until a round adds nothing, with a
bound on the rounds. This file shows that the bound is never what ends
the search: each of these values has a rank, a round that changes a value
raises its rank, and the rank cannot pass the bound.

A round is a fold over many small steps. Once the whole round changes
nothing, no step of it does (`foldl_fixed`), and that is the form in which
the closure properties are read off later.
-/
import BoardScript.Grammar.First
import Mathlib.Algebra.Order.BigOperators.Group.List
import Mathlib.Algebra.Order.Ring.Nat
import Mathlib.Data.List.Forall2
import Mathlib.Data.List.Induction
import Mathlib.Order.Basic

namespace BoardScript

-- ================================================================= folds

section

variable {β ι : Type} {step : β → ι → β}

/-- What each step keeps for one more item holds of all in the end. -/
theorem foldl_done {motive : List ι → β → Prop} {b : β} (h : motive [] b)
    (hstep : ∀ {done b} (i : ι), motive done b → motive (done ++ [i]) (step b i)) (l : List ι) :
    motive l (l.foldl step b) := by
  induction l using List.reverseRecOn with
  | nil => exact h
  | append_singleton done i ih =>
      rw [List.foldl_append]
      exact hstep i ih

/-- What one of many steps brings about, and all of them keep, holds in the
end. -/
theorem foldl_establishes {I P : β → Prop} {l : List ι} {i : ι} (hi : i ∈ l)
    (always : ∀ b, ∀ j ∈ l, I b → I (step b j)) (kept : ∀ b, ∀ j ∈ l, I b → P b → P (step b j))
    (here : ∀ b, I b → P (step b i)) {b : β} (hb : I b) : P (l.foldl step b) := by
  obtain ⟨front, back, rfl⟩ := List.append_of_mem hi
  rw [List.foldl_append, List.foldl_cons]
  have hfront : I (front.foldl step b) :=
    List.foldlRecOn front step hb fun c hc j hj => always c j (by simp [hj]) hc
  have hback : I (back.foldl step (step (front.foldl step b) i)) ∧
      P (back.foldl step (step (front.foldl step b) i)) :=
    List.foldlRecOn (motive := fun c => I c ∧ P c) back step
      ⟨always _ i (by simp) hfront, here _ hfront⟩ fun c hc j hj =>
        ⟨always c j (by simp [hj]) hc.1, kept c j (by simp [hj]) hc.1 hc.2⟩
  exact hback.2

end

-- ======================================================== sets of kinds

/-- Every kind stands in the list of kinds at its own place. -/
theorem TokenKind.getElem?_all (kind : TokenKind) :
    TokenKind.all[kind.index]? = some kind := by
  cases kind <;> rfl

theorem TokenKind.mem_all (kind : TokenKind) : kind ∈ TokenKind.all :=
  List.mem_of_getElem? (getElem?_all kind)

theorem TokenKind.index_lt (kind : TokenKind) : kind.index < TokenKind.all.length :=
  (List.getElem?_eq_some_iff.1 (getElem?_all kind)).1

theorem TokenKind.index_inj {a b : TokenKind} (h : a.index = b.index) : a = b := by
  have ha := getElem?_all a
  rw [h, getElem?_all b] at ha
  exact (Option.some.inj ha).symm

/-- A place in the list of kinds is the place of a kind. -/
theorem TokenKind.exists_index {i : Nat} (h : i < TokenKind.all.length) :
    ∃ kind : TokenKind, kind.index = i := by
  have hindices : ∀ i, i < TokenKind.all.length →
      (TokenKind.all[i]?).map TokenKind.index = some i := by decide
  obtain ⟨kind, -, hk⟩ := Option.map_eq_some_iff.1 (hindices i h)
  exact ⟨kind, hk⟩

namespace Grammar

namespace KindSet

@[simp] theorem contains_empty (kind : TokenKind) : empty.contains kind = false := by
  simp [empty, contains]

@[simp] theorem contains_union (a b : KindSet) (kind : TokenKind) :
    (a.union b).contains kind = (a.contains kind || b.contains kind) := by
  simp [union, contains]

@[simp] theorem contains_single (a b : TokenKind) :
    (single a).contains b = decide (a = b) := by
  unfold single contains
  rw [Nat.one_shiftLeft, Nat.testBit_two_pow]
  exact decide_eq_decide.2 ⟨TokenKind.index_inj, fun h => by rw [h]⟩

theorem mem_toList {s : KindSet} {kind : TokenKind} :
    kind ∈ s.toList ↔ s.contains kind = true := by
  simp [toList, TokenKind.mem_all]

/-- A set with no bit beyond those of the kinds. -/
def Sound (s : KindSet) : Prop := s.bits < 2 ^ TokenKind.all.length

theorem sound_empty : empty.Sound := Nat.two_pow_pos _

theorem sound_single (kind : TokenKind) : (single kind).Sound := by
  unfold Sound single
  rw [Nat.one_shiftLeft]
  exact Nat.pow_lt_pow_right (by decide) kind.index_lt

theorem sound_union {a b : KindSet} (ha : a.Sound) (hb : b.Sound) : (a.union b).Sound :=
  Nat.or_lt_two_pow ha hb

/-- Sound sets with the same members are the same. -/
theorem ext_contains {a b : KindSet} (ha : a.Sound) (hb : b.Sound)
    (h : ∀ kind, a.contains kind = b.contains kind) : a = b := by
  obtain ⟨x⟩ := a
  obtain ⟨y⟩ := b
  congr 1
  refine Nat.eq_of_testBit_eq fun i => ?_
  by_cases hi : i < TokenKind.all.length
  · obtain ⟨kind, rfl⟩ := TokenKind.exists_index hi
    exact h kind
  · have hle : 2 ^ TokenKind.all.length ≤ 2 ^ i :=
      Nat.pow_le_pow_right (by decide) (by omega)
    rw [Nat.testBit_lt_two_pow (Nat.lt_of_lt_of_le ha hle),
      Nat.testBit_lt_two_pow (Nat.lt_of_lt_of_le hb hle)]

/-- Every member of one set is a member of the other. -/
def Within (a b : KindSet) : Prop := ∀ kind, a.contains kind = true → b.contains kind = true

theorem Within.refl (a : KindSet) : a.Within a := fun _ h => h

theorem Within.trans {a b c : KindSet} (hab : a.Within b) (hbc : b.Within c) : a.Within c :=
  fun kind h => hbc kind (hab kind h)

theorem within_union_left (a b : KindSet) : a.Within (a.union b) := by
  intro kind h
  simp [h]

theorem within_union_right (a b : KindSet) : b.Within (a.union b) := by
  intro kind h
  simp [h]

theorem union_within {a b c : KindSet} (ha : a.Within c) (hb : b.Within c) :
    (a.union b).Within c := by
  intro kind h
  rw [contains_union, Bool.or_eq_true] at h
  exact h.elim (ha kind) (hb kind)

/-- What a union adds nothing to is within the set. -/
theorem within_of_union_eq {a b : KindSet} (h : a.union b = a) : b.Within a := by
  intro kind hk
  rw [← h]
  simp [hk]

/-- The members of a smaller set, listed, are among those of a larger. -/
theorem toList_sublist {a b : KindSet} (h : a.Within b) : a.toList.Sublist b.toList :=
  List.monotone_filter_right _ h

end KindSet

-- ================================================= orders with a rank

/-- Values that grow: an order, and a rank that tells a sound value from
every sound value properly above it. -/
class Ranked (α : Type) where
  le : α → α → Prop
  rank : α → Nat
  sound : α → Prop
  le_refl : ∀ a, le a a
  le_trans : ∀ {a b c}, le a b → le b c → le a c
  rank_le : ∀ {a b}, le a b → rank a ≤ rank b
  eq_of_rank_le : ∀ {a b}, sound a → sound b → le a b → rank b ≤ rank a → a = b

namespace Ranked

private theorem toNat_le_toNat {a b : Bool} (h : a = true → b = true) : a.toNat ≤ b.toNat := by
  cases a <;> simp_all

instance : Ranked KindSet where
  le := KindSet.Within
  rank s := s.toList.length
  sound := KindSet.Sound
  le_refl := KindSet.Within.refl
  le_trans := KindSet.Within.trans
  rank_le h := (KindSet.toList_sublist h).length_le
  eq_of_rank_le := by
    intro a b ha hb hab hr
    have heq := (KindSet.toList_sublist hab).eq_of_length_le hr
    refine KindSet.ext_contains ha hb fun kind => ?_
    rw [Bool.eq_iff_iff, ← KindSet.mem_toList, ← KindSet.mem_toList, heq]

instance : Ranked Start where
  le a b := a.first.Within b.first ∧ (a.nullable = true → b.nullable = true)
  rank a := a.first.toList.length + a.nullable.toNat
  sound a := a.first.Sound
  le_refl a := ⟨.refl _, id⟩
  le_trans h k := ⟨h.1.trans k.1, k.2 ∘ h.2⟩
  rank_le := by
    intro a b h
    exact Nat.add_le_add (KindSet.toList_sublist h.1).length_le (toNat_le_toNat h.2)
  eq_of_rank_le := by
    intro ⟨f, n⟩ ⟨f', n'⟩ ha hb ⟨hf, hn⟩ hr
    have h1 : f.toList.length ≤ f'.toList.length := (KindSet.toList_sublist hf).length_le
    have h2 : n.toNat ≤ n'.toNat := toNat_le_toNat hn
    simp only at hr hn
    have hrank : f'.toList.length ≤ f.toList.length := by omega
    obtain rfl : f = f' := eq_of_rank_le ha hb hf hrank
    have hnull : n'.toNat ≤ n.toNat := by omega
    obtain rfl : n = n' := by
      cases n <;> cases n'
      · rfl
      · exact absurd hnull (by decide)
      · exact absurd (hn rfl) (by decide)
      · rfl
    rfl

instance {α : Type} [Ranked α] : Ranked (Option α) where
  le
    | none, _ => True
    | some _, none => False
    | some a, some b => le a b
  rank
    | none => 0
    | some a => rank a + 1
  sound a := ∀ x ∈ a, sound x
  le_refl
    | none => trivial
    | some a => le_refl a
  le_trans := by
    intro a b c hab hbc
    cases a with
    | none => trivial
    | some a =>
        cases b with
        | none => exact hab.elim
        | some b =>
            cases c with
            | none => exact hbc.elim
            | some c => exact le_trans hab hbc
  rank_le := by
    intro a b h
    cases a with
    | none => exact Nat.zero_le _
    | some a =>
        cases b with
        | none => exact h.elim
        | some b => exact Nat.succ_le_succ (rank_le h)
  eq_of_rank_le := by
    intro a b ha hb h hr
    cases a with
    | none =>
        cases b with
        | none => rfl
        | some b => simp at hr
    | some a =>
        cases b with
        | none => exact h.elim
        | some b =>
            rw [eq_of_rank_le (ha a rfl) (hb b rfl) h (Nat.le_of_succ_le_succ hr)]

theorem sum_rank_le {α : Type} [Ranked α] {l m : List α} (h : List.Forall₂ le l m) :
    (l.map rank).sum ≤ (m.map rank).sum := by
  have hranks : List.Forall₂ (· ≤ ·) (l.map rank) (m.map rank) :=
    List.forall₂_map_left_iff.2 (List.forall₂_map_right_iff.2 (h.imp fun _ _ => rank_le))
  exact hranks.sum_le_sum

/-- Lists of one length are compared place by place, and their ranks add
up. -/
instance {α : Type} [Ranked α] : Ranked (List α) where
  le := List.Forall₂ le
  rank l := (l.map rank).sum
  sound l := ∀ a ∈ l, sound a
  le_refl l := List.forall₂_same.2 fun a _ => le_refl a
  le_trans := by
    intro a b c hab
    induction hab generalizing c with
    | nil => exact id
    | cons h _ ih =>
        intro hbc
        cases hbc with
        | cons h' t => exact .cons (le_trans h h') (ih t)
  rank_le := sum_rank_le
  eq_of_rank_le := by
    intro a b ha hb h
    induction h with
    | nil => intro _; rfl
    | @cons x y xs ys h t ih =>
        intro hr
        simp only [List.map_cons, List.sum_cons] at hr
        have hx : rank x ≤ rank y := rank_le h
        have ht : (xs.map rank).sum ≤ (ys.map rank).sum := sum_rank_le t
        rw [eq_of_rank_le (ha x (by simp)) (hb y (by simp)) h (by omega),
          ih (fun a m => ha a (by simp [m])) (fun a m => hb a (by simp [m])) (by omega)]

instance {α : Type} [Ranked α] : Ranked (Array α) where
  le a b := le a.toList b.toList
  rank a := rank a.toList
  sound a := sound a.toList
  le_refl a := le_refl a.toList
  le_trans h k := le_trans h k
  rank_le h := rank_le h
  eq_of_rank_le ha hb h hr := Array.toList_inj.1 (eq_of_rank_le ha hb h hr)

/-- The same order where only values with a property count as sound. -/
@[reducible] def restrict {α : Type} (base : Ranked α) (P : α → Prop) : Ranked α where
  le := base.le
  rank := base.rank
  sound a := base.sound a ∧ P a
  le_refl := base.le_refl
  le_trans := base.le_trans
  rank_le := base.rank_le
  eq_of_rank_le ha hb := base.eq_of_rank_le ha.1 hb.1

variable {α ι : Type} [Ranked α]

/-- Sound values that are below each other are equal. -/
theorem le_antisymm {a b : α} (ha : sound a) (hb : sound b) (hab : le a b) (hba : le b a) :
    a = b :=
  eq_of_rank_le ha hb hab (rank_le hba)

/-- The rank of a list is at most its length times the rank of an item. -/
theorem rank_list_le {l : List α} {bound : Nat} (h : ∀ a ∈ l, rank a ≤ bound) :
    rank l ≤ l.length * bound := by
  have hranks : ∀ r ∈ l.map rank, r ≤ bound := by
    intro r hr
    obtain ⟨a, ha, rfl⟩ := List.mem_map.1 hr
    exact h a ha
  calc rank l = (l.map rank).sum := rfl
    _ ≤ (l.map rank).length • bound := List.sum_le_card_nsmul _ bound hranks
    _ = l.length * bound := by rw [List.length_map, Nat.nsmul_eq_mul]

theorem size_eq_of_le {a b : Array α} (h : le a b) : a.size = b.size :=
  List.Forall₂.length_eq h

/-- Arrays are compared place by place. -/
theorem exists_le_getElem? {a b : Array α} (h : le a b) {i : Nat} {x : α} (hx : a[i]? = some x) :
    ∃ y, b[i]? = some y ∧ le x y := by
  obtain ⟨hi, rfl⟩ := Array.getElem?_eq_some_iff.1 hx
  have hi' : i < b.size := size_eq_of_le h ▸ hi
  exact ⟨b[i], Array.getElem?_eq_getElem hi', (List.forall₂_iff_get.1 h).2 i hi hi'⟩

theorem getElem?_le {a b : Array α} (h : le a b) {i : Nat} {x y : α} (hx : a[i]? = some x)
    (hy : b[i]? = some y) : le x y := by
  obtain ⟨y', hy', hle⟩ := exists_le_getElem? h hx
  obtain rfl := Option.some.inj (hy'.symm.trans hy)
  exact hle

-- ========================================================= going round

/-- Going round from one value comes to rest at another: the first that a
round does not change, after however many rounds. -/
inductive Rests {β : Type} (f : β → β) : β → β → Prop
  | done {b : β} (h : f b = b) : Rests f b b
  | again {b c : β} (h : f b ≠ b) (rest : Rests f (f b) c) : Rests f b c

/-- A step that keeps a value sound and makes it no smaller. -/
def Grows (f : α → α) : Prop := ∀ a, sound a → sound (f a) ∧ le a (f a)

/-- What steps do one after the other. -/
theorem foldl_grows {step : α → ι → α} {l : List ι} (h : ∀ i ∈ l, Grows (step · i)) :
    Grows fun a => l.foldl step a := by
  intro a ha
  induction l generalizing a with
  | nil => exact ⟨ha, le_refl a⟩
  | cons i rest ih =>
      obtain ⟨hs, hle⟩ := h i (by simp) a ha
      obtain ⟨hs', hle'⟩ := ih (fun j hj => h j (by simp [hj])) (step a i) hs
      exact ⟨hs', le_trans hle hle'⟩

/-- A round that changes nothing has no step that does. -/
theorem foldl_fixed {step : α → ι → α} {l : List ι} (h : ∀ i ∈ l, Grows (step · i)) {a : α}
    (ha : sound a) (fixed : l.foldl step a = a) : ∀ i ∈ l, step a i = a := by
  induction l with
  | nil => simp
  | cons i rest ih =>
      obtain ⟨hs, hle⟩ := h i (by simp) a ha
      have hrest : Grows fun b => rest.foldl step b :=
        foldl_grows fun j hj => h j (List.mem_cons_of_mem i hj)
      rw [List.foldl_cons] at fixed
      -- the rest of the round leads back, so the first step went nowhere
      have hstep : step a i = a := by
        refine le_antisymm hs ha ?_ hle
        have hback := (hrest (step a i) hs).2
        simp only [fixed] at hback
        exact hback
      intro j hj
      rcases List.mem_cons.1 hj with rfl | hj
      · exact hstep
      · refine ih (fun j hj => h j (by simp [hj])) ?_ j hj
        rw [hstep] at fixed
        exact fixed

/-- Settling stays above where it began. -/
theorem settle_grows [DecidableEq α] {f : α → α} (grows : Grows f) (rounds : Nat) :
    Grows (settle f rounds) := by
  intro a ha
  induction rounds generalizing a with
  | zero => exact ⟨ha, le_refl a⟩
  | succ rounds ih =>
      unfold settle
      obtain ⟨hs, hle⟩ := grows a ha
      by_cases h : f a = a
      · simpa [h] using ⟨ha, le_refl a⟩
      · simp only [h, if_false]
        exact ⟨(ih _ hs).1, le_trans hle (ih _ hs).2⟩

/-- What a round keeps, settling keeps. -/
theorem settle_keeps {β : Type} [DecidableEq β] {f : β → β} {P : β → Prop}
    (h : ∀ b, P b → P (f b)) (rounds : Nat) {b : β} (hb : P b) : P (settle f rounds b) := by
  induction rounds generalizing b with
  | zero => exact hb
  | succ rounds ih =>
      unfold settle
      dsimp only
      split
      · exact hb
      · exact ih (h b hb)

/-- Settling that ends at a fixed point is the loop without a bound. -/
theorem rests_settle {β : Type} [DecidableEq β] {f : β → β} :
    ∀ (rounds : Nat) {b : β}, f (settle f rounds b) = settle f rounds b →
      Rests f b (settle f rounds b) := by
  intro rounds
  induction rounds with
  | zero =>
      intro b h
      exact .done h
  | succ rounds ih =>
      intro b h
      unfold settle at h ⊢
      by_cases hb : f b = b
      · simp only [hb, if_true]
        exact .done hb
      · simp only [hb, if_false] at h ⊢
        exact .again hb (ih h)

/-- Settling ends at a fixed point: each round but the last raises the
rank, and there are more rounds than ranks. -/
theorem settle_fixed [DecidableEq α] {f : α → α} (grows : Grows f) {bound : Nat} :
    ∀ (rounds : Nat) {a : α}, sound a → (∀ b, sound b → le a b → rank b ≤ bound) →
      bound < rank a + rounds → f (settle f rounds a) = settle f rounds a := by
  intro rounds
  induction rounds with
  | zero =>
      intro a ha hb hr
      have := hb a ha (le_refl a)
      omega
  | succ rounds ih =>
      intro a ha hb hr
      unfold settle
      obtain ⟨hs, hle⟩ := grows a ha
      by_cases h : f a = a
      · simp [h]
      · simp only [h, if_false]
        have hlt : rank a < rank (f a) := by
          rcases Nat.lt_or_ge (rank a) (rank (f a)) with hlt | hge
          · exact hlt
          · exact absurd (eq_of_rank_le ha hs hle hge).symm h
        exact ih hs (fun b hbs hbl => hb b hbs (le_trans hle hbl)) (by omega)

/-- Changing one place of an array by a step that grows what is there. -/
theorem modify_at_grows {f : α → α} {a : Array α} {i : Nat} (ha : sound a)
    (grows : ∀ x, a[i]? = some x → sound x → sound (f x) ∧ le x (f x)) :
    sound (a.modify i f) ∧ le a (a.modify i f) := by
  have hat : ∀ (j : Nat) (hj : j < (a.modify i f).size) (hj' : j < a.size),
      sound (a.modify i f)[j] ∧ le a[j] (a.modify i f)[j] := by
    intro j hj hj'
    have hx : sound a[j] := ha _ (Array.mem_toList_iff.2 (Array.getElem_mem hj'))
    rw [Array.getElem_modify]
    split
    · next e =>
        subst e
        exact grows _ (Array.getElem?_eq_getElem hj') hx
    · exact ⟨hx, le_refl _⟩
  constructor
  · intro x hx
    obtain ⟨j, hj, rfl⟩ := Array.getElem_of_mem (Array.mem_toList_iff.1 hx)
    exact (hat j hj (by simpa using hj)).1
  · refine List.forall₂_iff_get.2 ⟨by simp, fun j hj hj' => ?_⟩
    exact (hat j hj' hj).2

theorem modify_grows {f : α → α} (grows : Grows f) (i : Nat) :
    Grows fun a : Array α => a.modify i f :=
  fun _ ha => modify_at_grows ha fun x _ hx => grows x hx

end Ranked

end Grammar

end BoardScript
