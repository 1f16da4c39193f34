/-
Numbers are places. The register counts scopes as they are made, so the
number of a scope is the number of scopes that were there before it, and no
number is given twice (`Register.Sound`). An entry is cleared away only when
its scope has been dropped, and a dropped scope is never held again: so every
scope that is held is found under its number, however often the entries were
cleared (`Register.Reached.find_eq`). Any scopes can be what is held
(`Register.exists_holding`).
-/
import BoardScript.Run.Register
import Mathlib.Data.List.Basic

namespace BoardScript

-- =================================================================== numbers

namespace Register

/-- What becomes of a register: scopes are made, and dropped. -/
inductive Leads (r : Register) : Register → Prop
  | here : Leads r r
  | make {s : Register} (h : Leads r s) : Leads r s.make
  | drop {s : Register} (h : Leads r s) (place : Nat) : Leads r (s.drop place)

/-- The registers that there can be. -/
def Reached : Register → Prop := start.Leads

/-- Numbers are places, and what is held has an entry. -/
structure Sound (r : Register) : Prop where
  numbers : ∀ place < r.numbers.size, r.numbers[place]? = some place
  next : r.next = r.numbers.size
  made : ∀ place, r.held place = true → place < r.numbers.size
  listed : ∀ place, r.held place = true → r.entries.lookup place = some place

variable {r s : Register}

/-- The first entry of a key stays the first as long as it stays at all. -/
theorem lookup_filter {keep : ScopeId × Nat → Bool} {entries : List (ScopeId × Nat)} {number place : Nat}
    (hfound : entries.lookup number = some place) (hkeep : keep (number, place) = true) :
    (entries.filter keep).lookup number = some place := by
  induction entries with
  | nil => cases hfound
  | cons entry entries ih =>
      obtain ⟨key, value⟩ := entry
      rw [List.lookup_cons] at hfound
      by_cases hkey : number = key
      · subst hkey
        simp only [beq_self_eq_true, Option.some.injEq] at hfound
        subst hfound
        rw [List.filter_cons_of_pos hkeep, List.lookup_cons_self]
      · have hne : (number == key) = false := beq_false_of_ne hkey
        rw [hne] at hfound
        rw [List.filter_cons]
        split
        · rw [List.lookup_cons, hne]
          exact ih hfound
        · exact ih hfound

theorem sound_start : start.Sound where
  numbers place hplace := by
    obtain rfl : place = 0 := Nat.lt_one_iff.1 hplace
    rfl
  next := rfl
  made place hheld := by
    obtain rfl : place = 0 := eq_of_beq hheld
    exact Nat.one_pos
  listed place hheld := by
    obtain rfl : place = 0 := eq_of_beq hheld
    rfl

/-- What is held is among the entries that remain. -/
theorem Sound.lookup_remaining (h : r.Sound) {place : Nat} (hheld : r.held place = true) :
    r.remaining.lookup place = some place := by
  unfold remaining
  split
  · exact lookup_filter (h.listed place hheld) hheld
  · exact h.listed place hheld

theorem Sound.make (h : r.Sound) : r.make.Sound where
  numbers place hplace := by
    show (r.numbers.push r.next)[place]? = some place
    rw [h.next, Array.getElem?_push]
    split
    · exact congrArg some (Eq.symm ‹_›)
    · rw [Register.make, Array.size_push] at hplace
      exact h.numbers place (Nat.lt_of_le_of_ne (Nat.le_of_lt_succ hplace) ‹_›)
  next := by
    rw [Register.make, Array.size_push, h.next]
  made place hheld := by
    rw [Register.make, Array.size_push]
    rcases Bool.or_eq_true_iff.1 hheld with hnew | hold
    · exact Nat.lt_succ_of_le (Nat.le_of_eq (eq_of_beq hnew))
    · exact Nat.lt_succ_of_lt (h.made place hold)
  listed place hheld := by
    show ((r.next, r.numbers.size) :: r.remaining).lookup place = some place
    rcases Bool.or_eq_true_iff.1 hheld with hnew | hold
    · obtain rfl : place = r.numbers.size := eq_of_beq hnew
      rw [h.next, List.lookup_cons_self]
    · -- the new number is that of no scope that was there
      have hne : (place == r.next) = false :=
        beq_false_of_ne (Nat.ne_of_lt (h.next ▸ h.made place hold))
      rw [List.lookup_cons, hne]
      exact h.lookup_remaining hold

theorem Sound.drop (h : r.Sound) (dropped : Nat) : (r.drop dropped).Sound where
  numbers := h.numbers
  next := h.next
  made place hheld := h.made place (Bool.and_eq_true_iff.1 hheld).2
  listed place hheld := h.listed place (Bool.and_eq_true_iff.1 hheld).2

theorem Leads.sound (h : r.Leads s) (hr : r.Sound) : s.Sound := by
  induction h with
  | here => exact hr
  | make _ ih => exact ih.make
  | drop _ place ih => exact ih.drop place

theorem Reached.sound (h : r.Reached) : r.Sound := Leads.sound h sound_start

/-- The number of a scope is never changed. -/
theorem Leads.numbers_eq (h : r.Leads s) :
    r.numbers.size ≤ s.numbers.size ∧
      ∀ place < r.numbers.size, s.numbers[place]? = r.numbers[place]? := by
  induction h with
  | here => exact ⟨Nat.le_refl _, fun _ _ => rfl⟩
  | @make s _ ih =>
      refine ⟨Nat.le_trans ih.1 (by rw [Register.make, Array.size_push]; exact Nat.le_succ _), ?_⟩
      intro place hplace
      show (s.numbers.push s.next)[place]? = _
      rw [Array.getElem?_push_lt (Nat.lt_of_lt_of_le hplace ih.1), ← ih.2 place hplace,
        Array.getElem?_eq_getElem]
  | drop _ _ ih => exact ih

/-- Two scopes never have one number. -/
theorem Reached.place_unique (h : r.Reached) {place other number : Nat}
    (hplace : r.numbers[place]? = some number) (hother : r.numbers[other]? = some number) :
    place = other := by
  obtain ⟨hlt, -⟩ := Array.getElem?_eq_some_iff.1 hplace
  obtain ⟨hlt', -⟩ := Array.getElem?_eq_some_iff.1 hother
  rw [h.sound.numbers place hlt, Option.some_inj] at hplace
  rw [h.sound.numbers other hlt', Option.some_inj] at hother
  exact hplace.trans hother.symm

/-- What is found under the number of a scope is that scope, as long as it is
held, and afterwards nothing. -/
theorem Reached.find_eq (h : r.Reached) {place : Nat} (hheld : r.held place = true) :
    r.numbers[place]? = some place ∧ r.find place = some place := by
  refine ⟨h.sound.numbers place (h.sound.made place hheld), ?_⟩
  simp [find, h.sound.listed place hheld, hheld]

-- ====================================================== what can be held

/-- A register of one scope more than given, all of which are held. -/
def all : Nat → Register
  | 0 => start
  | more + 1 => (all more).make

theorem reached_all (more : Nat) : (all more).Reached := by
  induction more with
  | zero => exact .here
  | succ more ih => exact .make ih

theorem size_all (more : Nat) : (all more).numbers.size = more + 1 := by
  induction more with
  | zero => rfl
  | succ more ih => rw [all, make, Array.size_push, ih]

theorem held_all (more place : Nat) : (all more).held place = true ↔ place ≤ more := by
  induction more with
  | zero => exact beq_iff_eq.trans Nat.le_zero.symm
  | succ more ih =>
      show (place == (all more).numbers.size || (all more).held place) = true ↔ _
      rw [size_all, Bool.or_eq_true, beq_iff_eq, ih]
      omega

/-- Of the first places those are dropped that need not be held. -/
theorem Reached.exists_dropping (h : r.Reached) (needed : Nat → Prop) (count : Nat) :
    ∃ s : Register, s.Reached ∧ s.numbers = r.numbers ∧
      ∀ place, s.held place = true ↔ r.held place = true ∧ (place < count → needed place) := by
  induction count with
  | zero => exact ⟨r, h, rfl, fun place => by simp⟩
  | succ count ih =>
      obtain ⟨s, hs, hnumbers, hheld⟩ := ih
      by_cases hneeded : needed count
      · refine ⟨s, hs, hnumbers, fun place => ?_⟩
        rw [hheld, Nat.lt_succ_iff_lt_or_eq, or_imp]
        refine and_congr_right fun _ => (and_iff_left ?_).symm
        rintro rfl
        exact hneeded
      · refine ⟨s.drop count, .drop hs count, hnumbers, fun place => ?_⟩
        show (place != count && s.held place) = true ↔ _
        rw [Bool.and_eq_true, bne_iff_ne, hheld, Nat.lt_succ_iff_lt_or_eq, or_imp]
        constructor
        · rintro ⟨hne, hr, hbelow⟩
          exact ⟨hr, hbelow, fun h => absurd h hne⟩
        · rintro ⟨hr, hbelow, hlast⟩
          exact ⟨fun h => hneeded (h ▸ hlast h), hr, hbelow⟩

/-- There are registers that hold just what is needed of so many scopes. -/
theorem exists_holding (needed : Nat → Prop) {count : Nat} (hcount : 0 < count) :
    ∃ r : Register, r.Reached ∧ r.numbers.size = count ∧
      ∀ place, r.held place = true ↔ place < count ∧ needed place := by
  obtain ⟨more, rfl⟩ := Nat.exists_eq_succ_of_ne_zero (Nat.ne_of_gt hcount)
  obtain ⟨r, hr, hnumbers, hheld⟩ := (reached_all more).exists_dropping needed (more + 1)
  refine ⟨r, hr, by rw [hnumbers, size_all], fun place => ?_⟩
  rw [hheld, held_all, ← Nat.lt_succ_iff]
  exact and_congr_right fun hlt => imp_iff_right hlt

end Register

end BoardScript
