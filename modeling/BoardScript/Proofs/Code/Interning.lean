/-
A constant keeps its place. Constants are registered one after the other on
a table that is empty at first (`tableOf`). No two constants of such a table
share a place, and there are 256 at most (`Distinct`). So a constant has one
place: the one it was given keeps reading back what was registered, a later
constant is given it just if it is the same number or text, and a table that
is full still has the places of what it holds (`interning_stable`).

A writer need not look through the table for a constant. It may keep an
index beside it, from numbers and texts to their places. Table and index
stay in step, and the places are the same (`indexed_places`).
-/
import BoardScript.Proofs.Code.Assembly
import Mathlib

namespace BoardScript

-- ============================================================== the same

namespace Constant

/-- Constants that are the same number, where all that is no number counts
as one, or the same text. -/
inductive Same : Constant → Constant → Prop
  | number {a b : Float} (h : (a == b) = true) : Same (.number a) (.number b)
  | notANumber {a b : Float} (ha : a.isNaN = true) (hb : b.isNaN = true) :
      Same (.number a) (.number b)
  | string (text : String) : Same (.string text) (.string text)

variable {a b c : Constant}

theorem shares_iff : a.shares b = true ↔ a.Same b := by
  constructor
  · intro h
    cases a with
    | number x =>
        cases b with
        | number y =>
            rcases Bool.or_eq_true_iff.1 h with h | h
            · exact .number h
            · obtain ⟨hx, hy⟩ := Bool.and_eq_true_iff.1 h
              exact .notANumber hx hy
        | _ => cases h
    | string text =>
        cases b with
        | string other =>
            obtain rfl : text = other := of_decide_eq_true h
            exact .string text
        | _ => cases h
    | function _ _ => cases h
  · intro h
    cases h with
    | number h => exact Bool.or_eq_true_iff.2 (.inl h)
    | notANumber ha hb => exact Bool.or_eq_true_iff.2 (.inr (Bool.and_eq_true_iff.2 ⟨ha, hb⟩))
    | string text => exact decide_eq_true rfl

theorem not_same_iff : ¬ a.Same b ↔ a.shares b = false := by
  rw [← shares_iff, Bool.not_eq_true]

/-- What is equal to something is a number. -/
theorem isNaN_of_beq {x y : Float} (h : (x == y) = true) : x.isNaN = false := by
  rw [Float.isNaN_eq_decide_eq_nan]
  exact decide_eq_false (Float.beq_iff_ne_nan_and_eq.1 h).1

theorem Same.symm (h : a.Same b) : b.Same a := by
  cases h with
  | number h => exact .number (BEq.symm h)
  | notANumber ha hb => exact .notANumber hb ha
  | string text => exact .string text

theorem Same.trans (h : a.Same b) (h' : b.Same c) : a.Same c := by
  cases h with
  | @number x y h =>
      cases h' with
      | number h' => exact .number (BEq.trans h h')
      | notANumber hy _ =>
          have hnan := isNaN_of_beq (BEq.symm h)
          rw [hy] at hnan
          cases hnan
  | notANumber hx hy =>
      cases h' with
      | number h' =>
          have hnan := isNaN_of_beq h'
          rw [hy] at hnan
          cases hnan
      | notANumber _ hz => exact .notANumber hx hz
  | string text => exact h'

/-- What is read back for a constant: the same number or text, or the very
function. -/
inductive Keeps : Constant → Constant → Prop
  | same {kept c : Constant} (h : kept.Same c) : Keeps kept c
  | function (literal : FunctionLiteral) (chunk : Chunk) :
      Keeps (.function literal chunk) (.function literal chunk)

theorem Same.number_self (x : Float) : (Constant.number x).Same (.number x) := by
  by_cases hx : x = Float.nan
  · have hnan : x.isNaN = true := by rw [Float.isNaN_eq_decide_eq_nan, decide_eq_true hx]
    exact .notANumber hnan hnan
  · exact .number (Float.beq_self_iff.2 hx)

theorem Keeps.self (c : Constant) : c.Keeps c := by
  cases c with
  | number x => exact .same (.number_self x)
  | string text => exact .same (.string text)
  | function literal chunk => exact .function literal chunk

/-- What is kept for a constant is the same as what the constant is. -/
theorem Keeps.same_iff (h : a.Keeps b) : a.Same c ↔ b.Same c := by
  cases h with
  | same h => exact ⟨h.symm.trans, h.trans⟩
  | function _ _ => exact .rfl

end Constant

-- ======================================================= one registration

/-- A table on which no two constants share a place, with no more constants
than there are places. -/
structure Distinct (constants : List Constant) : Prop where
  bounded : constants.length ≤ 256
  apart : constants.Pairwise fun a b => ¬ a.Same b

namespace Distinct

variable {constants : List Constant} (h : Distinct constants)

include h

/-- A registration keeps what there is, and has a place for the constant. -/
theorem register {c : Constant} {grown : List Constant} {address : Address}
    (hr : registerConstant constants c = some (grown, address)) :
    Distinct grown ∧ constants <+: grown ∧
      ∃ kept, grown[address.byte.toNat]? = some kept ∧ kept.Keeps c := by
  have hc := registers h.bounded c
  rw [hr] at hc
  cases hc with
  | found hplace hshares =>
      exact ⟨h, List.prefix_refl _, _, hplace, .same (Constant.shares_iff.1 hshares)⟩
  | added hnew hroom haddress =>
      refine ⟨⟨?_, ?_⟩, List.prefix_append _ _, c, ?_, .self c⟩
      · rw [List.length_append]
        exact hroom
      · rw [List.pairwise_append]
        refine ⟨h.apart, List.pairwise_singleton _ _, fun kept hkept other hother => ?_⟩
        rw [List.mem_singleton.1 hother]
        exact Constant.not_same_iff.2 (hnew kept hkept)
      · rw [haddress]
        exact List.getElem?_concat_length

/-- There is one place for a number or a text. -/
theorem place_unique {i j : Nat} {a b : Constant} (hi : constants[i]? = some a)
    (hj : constants[j]? = some b) (hsame : a.Same b) : i = j := by
  obtain ⟨hilt, rfl⟩ := List.getElem?_eq_some_iff.1 hi
  obtain ⟨hjlt, rfl⟩ := List.getElem?_eq_some_iff.1 hj
  have hapart := List.pairwise_iff_getElem.1 h.apart
  rcases Nat.lt_trichotomy i j with hlt | heq | hlt
  · exact absurd hsame (hapart i j hilt hjlt hlt)
  · exact heq
  · exact absurd hsame.symm (hapart j i hjlt hilt hlt)

/-- The place of a constant on the table is given out for what is the same,
and for nothing else. -/
theorem answer_iff {address : Address} {kept : Constant}
    (hplace : constants[address.byte.toNat]? = some kept) (d : Constant) :
    (registerConstant constants d).map Prod.snd = some address ↔ kept.Same d := by
  have hd := registers h.bounded d
  have hmem : kept ∈ constants := List.mem_of_getElem? hplace
  generalize registerConstant constants d = registered at hd
  cases hd with
  | @found other found hfound hshares =>
      have hsame := Constant.shares_iff.1 hshares
      constructor
      · intro heq
        obtain rfl : found = address := Option.some.inj heq
        obtain rfl := Option.some.inj (hfound.symm.trans hplace)
        exact hsame
      · intro hkept
        have hplaces := h.place_unique hfound hplace (hsame.trans hkept.symm)
        obtain ⟨byte⟩ := found
        obtain ⟨byte'⟩ := address
        have hbytes : byte = byte' := UInt8.toNat_inj.1 hplaces
        rw [hbytes]
        rfl
  | @added added hnew hroom haddress =>
      refine ⟨fun heq => ?_, fun hkept => absurd hkept (Constant.not_same_iff.2 (hnew kept hmem))⟩
      obtain rfl : added = address := Option.some.inj heq
      obtain ⟨hlt, -⟩ := List.getElem?_eq_some_iff.1 hplace
      omega
  | full hnew _ =>
      exact ⟨nofun, fun hkept => absurd hkept (Constant.not_same_iff.2 (hnew kept hmem))⟩

/-- No place is left for a constant if all are taken, and none by the same. -/
theorem refused_iff (c : Constant) : registerConstant constants c = none ↔
    constants.length = 256 ∧ ∀ kept ∈ constants, ¬ kept.Same c := by
  have hc := registers h.bounded c
  generalize registerConstant constants c = registered at hc
  simp only [Constant.not_same_iff]
  cases hc with
  | found hplace hshares =>
      refine ⟨nofun, fun hnone => ?_⟩
      rw [hnone.2 _ (List.mem_of_getElem? hplace)] at hshares
      cases hshares
  | added hnew hroom _ => exact ⟨nofun, fun hnone => absurd hnone.1 (Nat.ne_of_lt hroom)⟩
  | full hnew hfull => exact ⟨fun _ => ⟨hfull, hnew⟩, fun _ => rfl⟩

end Distinct

-- ====================================================== many registrations

/-- The table behind one more registration. Nothing changes if there is no
place. -/
def grow (constants : List Constant) (c : Constant) : List Constant :=
  ((registerConstant constants c).map Prod.fst).getD constants

/-- The table that constants come to, registered one after the other. -/
def tableOf (history : List Constant) : List Constant := history.foldl grow []

/-- The place that a constant is given when others have been registered. -/
def placeAfter (history : List Constant) (c : Constant) : Option Address :=
  (registerConstant (tableOf history) c).map Prod.snd

theorem Distinct.grow {constants : List Constant} (h : Distinct constants) (c : Constant) :
    Distinct (grow constants c) ∧ constants <+: BoardScript.grow constants c := by
  unfold BoardScript.grow
  cases hr : registerConstant constants c with
  | none => exact ⟨h, List.prefix_refl _⟩
  | some registered =>
      obtain ⟨hgrown, hprefix, -⟩ := h.register hr
      exact ⟨hgrown, hprefix⟩

theorem Distinct.foldl {constants : List Constant} (h : Distinct constants)
    (more : List Constant) :
    Distinct (more.foldl BoardScript.grow constants) ∧
      constants <+: more.foldl BoardScript.grow constants := by
  induction more generalizing constants with
  | nil => exact ⟨h, List.prefix_refl _⟩
  | cons c more ih =>
      obtain ⟨hgrown, hprefix⟩ := h.grow c
      obtain ⟨hdistinct, hmore⟩ := ih hgrown
      exact ⟨hdistinct, hprefix.trans hmore⟩

theorem distinct_tableOf (history : List Constant) : Distinct (tableOf history) :=
  (Distinct.foldl ⟨by decide, .nil⟩ history).1

/-- A place that has been given out keeps its constant, whatever else is
registered. -/
theorem exists_kept {history : List Constant} {c : Constant} {address : Address}
    (h : placeAfter history c = some address) (more : List Constant) :
    ∃ kept, (tableOf (history ++ c :: more))[address.byte.toNat]? = some kept ∧ kept.Keeps c := by
  obtain ⟨⟨grown, address⟩, hr, rfl⟩ := Option.map_eq_some_iff.1 h
  obtain ⟨hgrown, -, kept, hkept, hkeeps⟩ := (distinct_tableOf history).register hr
  have htable : tableOf (history ++ c :: more) = more.foldl grow grown := by
    rw [tableOf, List.foldl_append, List.foldl_cons]
    show more.foldl grow (grow (tableOf history) c) = _
    rw [grow, hr]
    rfl
  obtain ⟨-, rest, hrest⟩ := hgrown.foldl more
  obtain ⟨hlt, -⟩ := List.getElem?_eq_some_iff.1 hkept
  refine ⟨kept, ?_, hkeeps⟩
  rw [htable, ← hrest, List.getElem?_append_left hlt, hkept]

-- =============================================================== an index

/-- What constants are looked up by: numbers and texts. -/
inductive Key where
  | number (value : Float)
  | string (value : String)

namespace Key

def constant : Key → Constant
  | .number value => .number value
  | .string value => .string value

/-- Keys are equal if their constants are the same. -/
instance : BEq Key := ⟨fun a b => a.constant.shares b.constant⟩

theorem beq_iff {a b : Key} : (a == b) = true ↔ a.constant.Same b.constant :=
  Constant.shares_iff

instance : EquivBEq Key where
  rfl {key} := by
    rw [beq_iff]
    cases key with
    | number value => exact .number_self value
    | string value => exact .string value
  symm h := beq_iff.2 (beq_iff.1 h).symm
  trans h h' := beq_iff.2 ((beq_iff.1 h).trans (beq_iff.1 h'))

end Key

def Constant.key? : Constant → Option Key
  | .number value => some (.number value)
  | .string value => some (.string value)
  | .function _ _ => none

theorem Constant.eq_of_key? {c : Constant} {key : Key} (h : c.key? = some key) :
    c = key.constant := by
  cases c <;> cases h <;> rfl

/-- A function is looked up by nothing, since no constant shares its place. -/
theorem Constant.shares_of_key? {c : Constant} (h : c.key? = none) (kept : Constant) :
    kept.shares c = false ∧ c.shares kept = false := by
  cases c with
  | function literal chunk => cases kept <;> exact ⟨rfl, rfl⟩
  | _ => cases h

section Index

variable [Hashable Key]

/-- A table with an index of what is on it. -/
structure IndexedTable where
  constants : List Constant
  index : Std.HashMap Key UInt8

namespace IndexedTable

/-- Registers a constant, looked up in the index. -/
def register (t : IndexedTable) (c : Constant) : IndexedTable × Option Address :=
  match c.key?.bind fun key => t.index[key]? with
  | some byte => (t, some ⟨byte⟩)
  | none =>
      if t.constants.length < 256 then
        let byte := t.constants.length.toUInt8
        let index := match c.key? with
          | some key => t.index.insert key byte
          | none => t.index
        (⟨t.constants ++ [c], index⟩, some ⟨byte⟩)
      else (t, none)

/-- An index has the places that a search finds. -/
def InStep (t : IndexedTable) : Prop :=
  ∀ key : Key, t.index[key]? = (t.constants.findIdx? (·.shares key.constant)).map Nat.toUInt8

variable {t : IndexedTable}

/-- A search that is left to the index. -/
theorem InStep.lookup (h : t.InStep) (c : Constant) :
    (c.key?.bind fun key => t.index[key]?)
      = (t.constants.findIdx? (·.shares c)).map Nat.toUInt8 := by
  cases hkey : c.key? with
  | some key =>
      rw [Constant.eq_of_key? hkey]
      exact h key
  | none =>
      have hnone : t.constants.findIdx? (·.shares c) = none :=
        List.findIdx?_eq_none_iff.2 fun kept _ => (Constant.shares_of_key? hkey kept).1
      rw [hnone]
      rfl

/-- With the index a registration comes to what it comes to without. -/
theorem InStep.register_eq (h : t.InStep) (c : Constant) :
    (t.register c).1.constants = grow t.constants c ∧
      (t.register c).2 = (registerConstant t.constants c).map Prod.snd := by
  unfold IndexedTable.register grow registerConstant
  rw [h.lookup c]
  cases t.constants.findIdx? (·.shares c) with
  | some place => exact ⟨rfl, rfl⟩
  | none =>
      dsimp only [Option.map_none]
      split <;> exact ⟨rfl, rfl⟩

/-- The index stays in step. -/
theorem InStep.register [LawfulHashable Key] (h : t.InStep) (c : Constant) :
    (t.register c).1.InStep := by
  unfold IndexedTable.register
  rw [h.lookup c]
  cases hsearch : t.constants.findIdx? (·.shares c) with
  | some place => exact h
  | none =>
      dsimp only [Option.map_none]
      split
      swap
      · exact h
      intro key
      -- the new constant is found behind what is found already
      rw [List.findIdx?_append, List.findIdx?_singleton]
      cases hkey : c.key? with
      | none =>
          rw [(Constant.shares_of_key? hkey key.constant).2]
          simp [h key]
      | some new =>
          obtain rfl := Constant.eq_of_key? hkey
          have hequal : (new == key) = new.constant.shares key.constant := rfl
          dsimp only
          rw [Std.HashMap.getElem?_insert, hequal, h key]
          cases hshares : new.constant.shares key.constant with
          | false => simp
          | true =>
              -- nothing on the table is the same as the new one, nor as its key
              have hnone : t.constants.findIdx? (·.shares key.constant) = none := by
                rw [List.findIdx?_eq_none_iff] at hsearch ⊢
                intro kept hkept
                have hnew := hsearch kept hkept
                rw [← Bool.not_eq_true, Constant.shares_iff] at hnew ⊢
                exact fun hsame => hnew (hsame.trans (Constant.shares_iff.1 hshares).symm)
              simp [hnone]

end IndexedTable

/-- The table with an index that constants come to. -/
def indexedTableOf (history : List Constant) : IndexedTable :=
  history.foldl (fun t c => (t.register c).1) ⟨[], ∅⟩

theorem inStep_indexedTableOf [LawfulHashable Key] (history : List Constant) :
    (indexedTableOf history).InStep ∧ (indexedTableOf history).constants = tableOf history := by
  induction history using List.reverseRecOn with
  | nil => exact ⟨fun _ => Std.HashMap.getElem?_empty, rfl⟩
  | append_singleton history c ih =>
      obtain ⟨hstep, htable⟩ := ih
      rw [indexedTableOf, tableOf, List.foldl_append, List.foldl_append]
      exact ⟨hstep.register c, (hstep.register_eq c).1.trans (congrArg (grow · c) htable)⟩

/-- Looking constants up gives them the same places. -/
theorem indexed_places [LawfulHashable Key] (history : List Constant) (c : Constant) :
    ((indexedTableOf history).register c).2 = placeAfter history c := by
  obtain ⟨hstep, htable⟩ := inStep_indexedTableOf history
  rw [placeAfter, ← htable]
  exact (hstep.register_eq c).2

end Index

/-- There is a hash that equal keys agree on. -/
example : ∃ _ : Hashable Key, LawfulHashable Key :=
  ⟨⟨fun _ => 0⟩, @LawfulHashable.mk _ _ ⟨fun _ => 0⟩ fun _ _ _ => rfl⟩

-- ============================================================== all of it

/-- Places of constants are stable, and there are 256. The place given to a
constant keeps reading back what was registered; of all constants registered
later, those are given it that are the same number or text, and a function
never. None is given just when all places are taken and none by the same,
and then nothing changes. All of this is so whether constants are looked up
in the table or in an index, for any hash that equal keys agree on. -/
theorem interning_stable (history : List Constant) (c : Constant) :
    (tableOf history).length ≤ 256 ∧
    (∀ address, placeAfter history c = some address → ∀ more : List Constant,
      (∀ chunk : Chunk, chunk.constants = tableOf (history ++ c :: more) →
        ∃ kept, chunk.constantAt address = .ok kept ∧ kept.Keeps c) ∧
      ∀ d, placeAfter (history ++ c :: more) d = some address ↔ c.Same d) ∧
    (placeAfter history c = none ↔
      (tableOf history).length = 256 ∧ ∀ kept ∈ tableOf history, ¬ kept.Same c) ∧
    (placeAfter history c = none → tableOf (history ++ [c]) = tableOf history) ∧
    ∀ [Hashable Key] [LawfulHashable Key],
      (indexedTableOf history).constants = tableOf history ∧
        ((indexedTableOf history).register c).2 = placeAfter history c := by
  refine ⟨(distinct_tableOf history).bounded, fun address haddress more => ?_, ?_, fun hnone => ?_,
    fun {_ _} => ⟨(inStep_indexedTableOf history).2, indexed_places history c⟩⟩
  · obtain ⟨kept, hkept, hkeeps⟩ := exists_kept haddress more
    refine ⟨fun chunk hchunk => ⟨kept, ?_, hkeeps⟩, fun d => ?_⟩
    · rw [Chunk.constantAt, hchunk, hkept]
    · exact ((distinct_tableOf _).answer_iff hkept d).trans hkeeps.same_iff
  · rw [placeAfter, Option.map_eq_none_iff]
    exact (distinct_tableOf history).refused_iff c
  · have hrefused : registerConstant (tableOf history) c = none := Option.map_eq_none_iff.1 hnone
    rw [tableOf, List.foldl_append]
    show grow (tableOf history) c = tableOf history
    rw [grow, hrefused]
    rfl

example : placeAfter [.number 0, .string "x", .number 1] (.number (-0)) = some ⟨0⟩ := by
  decide +kernel

end BoardScript
