/-
Numerals are read back exactly. A double without a sign is known from what
it compares equal to: of the doubles that compare equal but differ, one is
a zero with a sign, and all that are no number are the same one. A numeral
has no sign, so numerals that share a place among the constants of a chunk
stand for the same double (`number_of_shares`).
-/
import BoardScript.Code.Compile
import BoardScript.Proofs.Token.Spelling
import Mathlib

namespace BoardScript.Numeric

open Float.Model Float.Model.UnpackedFloat

/-- The bits of a double. -/
def bits (x : Float) : BitVec Format.binary64.numBits := x.toModel.toBits.toBitVec

/-- A double whose sign bit is not set. -/
def Unsigned (x : Float) : Prop := unpackSign (bits x) = 0#1

theorem eq_of_bits {x y : Float} (h : bits x = bits y) : x = y := by
  obtain ⟨⟨x, hx⟩⟩ := x
  obtain ⟨⟨y, hy⟩⟩ := y
  obtain rfl : x = y := UInt64.toBitVec_inj.1 h
  rfl

theorem toNat_sign (b : BitVec Format.binary64.numBits) :
    (unpackSign b).toNat = b.toNat / 2 ^ 63 % 2 := by
  simp [unpackSign, Nat.shiftRight_eq_div_pow]

theorem toNat_exponent (b : BitVec Format.binary64.numBits) :
    (unpackExponent b).toNat = b.toNat / 2 ^ 52 % 2 ^ 11 := by
  simp [unpackExponent, Nat.shiftRight_eq_div_pow]

theorem toNat_mantissa (b : BitVec Format.binary64.numBits) :
    (unpackMantissa b).toNat = b.toNat % 2 ^ 52 := by
  simp [unpackMantissa]

theorem eq_of_fields {b c : BitVec Format.binary64.numBits} (hs : unpackSign b = unpackSign c)
    (he : unpackExponent b = unpackExponent c) (hm : unpackMantissa b = unpackMantissa c) :
    b = c := by
  have hs := congrArg BitVec.toNat hs
  have he := congrArg BitVec.toNat he
  have hm := congrArg BitVec.toNat hm
  rw [toNat_sign, toNat_sign] at hs
  rw [toNat_exponent, toNat_exponent] at he
  rw [toNat_mantissa, toNat_mantissa] at hm
  have hb := b.isLt
  have hc := c.isLt
  refine BitVec.eq_of_toNat_eq ?_
  simp only [Format.numBits] at hb hc
  omega

/-- What stands in front of the fraction of a finite double. -/
def leading (b : BitVec Format.binary64.numBits) : Nat :=
  if unpackExponent b = 0#11 then 0 else 2 ^ 52

/-- The ways in which a double can be unpacked. -/
inductive Unpacks (b : BitVec Format.binary64.numBits) : UnpackedFloat → Prop
  | infinity (he : unpackExponent b = -1#11) (hm : unpackMantissa b = 0#52) :
      Unpacks b (.infinity (.ofBitVec (unpackSign b)))
  | notANumber (he : unpackExponent b = -1#11) (hm : unpackMantissa b ≠ 0#52) :
      Unpacks b .notANumber
  | zero (he : unpackExponent b = 0#11) (hm : unpackMantissa b = 0#52) :
      Unpacks b (.zero (.ofBitVec (unpackSign b)))
  | finite (hpos : 0 < leading b + (unpackMantissa b).toNat) :
      Unpacks b (.finite (.ofBitVec (unpackSign b)) (leading b + (unpackMantissa b).toNat)
        ((max (unpackExponent b).toNat 1 : Nat) - (1023 + 52 : Int)) hpos)

theorem unpacks (b : BitVec Format.binary64.numBits) : Unpacks b (.unpack .binary64 b) := by
  have hexponent : (unpackExponent b).toNat = 0 ↔ unpackExponent b = 0#11 := by
    rw [← BitVec.toNat_inj]
    rfl
  simp only [UnpackedFloat.unpack]
  split_ifs with hones hzero hexp hzero
  · exact .infinity hones hzero
  · exact .notANumber hones hzero
  · exact .zero hexp hzero
  · have hpos : 0 < leading b + (unpackMantissa b).toNat := by
      rw [leading, if_pos hexp, Nat.zero_add]
      exact Nat.pos_of_ne_zero fun h => hzero (BitVec.eq_of_toNat_eq h)
    have h := Unpacks.finite hpos
    convert h using 2
    · rw [leading, if_pos hexp, Nat.zero_add]
    · rw [hexponent.2 hexp]
      rfl
  · have hpos : 0 < leading b + (unpackMantissa b).toNat := by
      rw [leading, if_neg hexp]
      exact Nat.add_pos_left (by decide) _
    have h := Unpacks.finite hpos
    convert h using 2
    · rw [leading, if_neg hexp, BitVec.toNat_append, Nat.shiftLeft_eq,
        Nat.mul_comm, ← Nat.two_pow_add_eq_or_of_lt (unpackMantissa b).isLt]
      rfl
    · rw [Nat.max_eq_left (Nat.one_le_iff_ne_zero.2 fun h => hexp (hexponent.1 h))]
      rfl

theorem eq_of_isNaN {x y : Float} (hx : x.isNaN = true) (hy : y.isNaN = true) : x = y := by
  have hnan (z : Float) (hz : z.isNaN = true) : bits z = packedNaN .binary64 := by
    have hnone : (UnpackedFloat.unpack .binary64 (bits z)).isNaN = true := hz
    have hview := unpacks (bits z)
    generalize UnpackedFloat.unpack .binary64 (bits z) = u at hnone hview
    cases hview with
    | notANumber he hm => exact z.toModel.valid.eq_packedNaN he hm
    | _ => cases hnone
  exact eq_of_bits ((hnan x hx).trans (hnan y hy).symm)

/-- What a double without a sign holds tells its fields. -/
theorem fields_of_compare {b c : BitVec Format.binary64.numBits} (hb : unpackSign b = 0#1)
    (hc : unpackSign c = 0#1)
    (h : (UnpackedFloat.unpack .binary64 b).compare (UnpackedFloat.unpack .binary64 c) = some .eq) :
    unpackExponent b = unpackExponent c ∧ unpackMantissa b = unpackMantissa c := by
  have hleft := unpacks b
  have hright := unpacks c
  generalize UnpackedFloat.unpack .binary64 b = u at h hleft
  generalize UnpackedFloat.unpack .binary64 c = v at h hright
  cases hleft <;> cases hright
  all_goals
    simp only [hb, hc, UnpackedFloat.Sign.ofBitVec, if_true, UnpackedFloat.compare, reduceCtorEq,
      Option.some.injEq] at h
  case infinity.infinity he hm he' hm' => exact ⟨he.trans he'.symm, hm.trans hm'.symm⟩
  case zero.zero he hm he' hm' => exact ⟨he.trans he'.symm, hm.trans hm'.symm⟩
  case finite.finite hpos hpos' =>
    simp only [Ordering.then_eq_eq, Nat.compare_eq_eq, Int.compare_eq_eq] at h
    obtain ⟨hexponent, hmantissa⟩ := h
    have hm : (unpackMantissa b).toNat < 2 ^ 52 := (unpackMantissa b).isLt
    have hm' : (unpackMantissa c).toNat < 2 ^ 52 := (unpackMantissa c).isLt
    have hzero (d : BitVec Format.binary64.numBits) :
        leading d = 0 ∧ (unpackExponent d).toNat = 0 ∨
          leading d = 2 ^ 52 ∧ (unpackExponent d).toNat ≠ 0 := by
      unfold leading
      split
      · rename_i h
        exact .inl ⟨rfl, by rw [h]; rfl⟩
      · rename_i h
        exact .inr ⟨rfl, fun h' => h (BitVec.eq_of_toNat_eq h')⟩
    rw [← BitVec.toNat_inj, ← BitVec.toNat_inj]
    have := hzero b
    have := hzero c
    omega

theorem eq_of_beq {x y : Float} (hx : Unsigned x) (hy : Unsigned y) (h : (x == y) = true) :
    x = y := by
  have hcompare : (UnpackedFloat.unpack .binary64 (bits x)).compare
      (UnpackedFloat.unpack .binary64 (bits y)) = some .eq := LawfulBEq.eq_of_beq h
  obtain ⟨he, hm⟩ := fields_of_compare hx hy hcompare
  exact eq_of_bits (eq_of_fields (hx.trans hy.symm) he hm)

theorem unpackSign_packComponents (s : UnpackedFloat.Sign) (e : BitVec 11) (m : BitVec 52) :
    unpackSign (packComponents .binary64 s e m) = s.toBitVec := by
  refine BitVec.eq_of_toNat_eq ?_
  have hm := m.isLt
  have he := e.isLt
  have hs := s.toBitVec.isLt
  rw [toNat_sign, packComponents, BitVec.toNat_append, BitVec.toNat_append, Nat.shiftLeft_eq,
    Nat.shiftLeft_eq, Nat.mul_comm, Nat.mul_comm _ (2 ^ _), ← Nat.two_pow_add_eq_or_of_lt he,
    ← Nat.two_pow_add_eq_or_of_lt hm]
  omega

/-- Bits without a sign make a double without one. -/
theorem unsigned_ofBits {b : UInt64} (h : b.toNat < 2 ^ 63) : Unsigned (Float.ofBits b) := by
  have hsign : @unpackSign .binary64 b.toBitVec = 0#1 := by
    refine BitVec.eq_of_toNat_eq ?_
    rw [toNat_sign, show b.toBitVec.toNat = b.toNat from rfl, Nat.div_eq_of_lt h]
    rfl
  have hview := unpacks b.toBitVec
  show unpackSign (UnpackedFloat.pack .binary64 (UnpackedFloat.unpack .binary64 b.toBitVec)) = 0#1
  generalize UnpackedFloat.unpack .binary64 b.toBitVec = u at hview
  cases hview
  all_goals
    simp only [hsign, UnpackedFloat.Sign.ofBitVec, if_true, UnpackedFloat.pack, packedInfinity,
      packedNaN, packedZero, apply_ite unpackSign, unpackSign_packComponents,
      UnpackedFloat.Sign.toBitVec, ite_self]

instance (x : Float) : Decidable (Unsigned x) := inferInstanceAs (Decidable (_ = _))

end BoardScript.Numeric

namespace BoardScript.Decimal

open Numeric

theorem nearestBits_lt (num den : Nat) : (nearestBits num den).toNat < 2 ^ 63 := by
  simp only [nearestBits]
  generalize (if _ < hiddenBit then _ else _ : Nat) = bits
  rw [show ∀ n : Nat, n.toUInt64.toNat = n % 2 ^ 64 from fun n => by simp]
  omega

theorem unsigned_toFloat (digits : Nat) (exponent : Int) : Unsigned (toFloat false digits exponent) := by
  refine unsigned_ofBits ?_
  simp only [Bool.false_eq_true, if_false]
  split_ifs
  · decide
  · decide
  · exact nearestBits_lt _ _
  · exact nearestBits_lt _ _

theorem unsigned_readMagnitude {cs : List Char} {x : Float} (h : readMagnitude false cs = some x) :
    Unsigned x := by
  have hread {exponent : Option Int} {digits fraction : Nat} (h : (do
      let exponent ← exponent
      return toFloat false digits (exponent - fraction)) = some x) : Unsigned x := by
    obtain ⟨e, -, he⟩ := Option.bind_eq_some_iff.1 h
    exact Option.some.inj he ▸ unsigned_toFloat digits _
  simp only [readMagnitude] at h
  split at h
  all_goals
    split at h
    · cases h
    · split at h
      · exact hread h
      · split at h
        · exact hread h
        · exact hread h

/-- A text without a sign is read as a double without one. -/
theorem unsigned_read {text : String} {x : Float} (hsign : ∀ rest, text.toList ≠ '-' :: rest)
    (h : read? text = some x) : Unsigned x := by
  have hread (cs : List Char)
      (h : (if String.ofList (cs.map Char.toLower) = "inf" ∨
              String.ofList (cs.map Char.toLower) = "infinity" then some (1.0 / 0.0)
            else if String.ofList (cs.map Char.toLower) = "nan" then some (0.0 / 0.0)
            else readMagnitude false cs) = some x) : Unsigned x := by
    split_ifs at h
    · cases h
      decide +kernel
    · cases h
      decide +kernel
    · exact unsigned_readMagnitude h
  unfold read? at h
  generalize text.toList = cs at h hsign
  split at h
  rename_i negative cs' hcs
  split at hcs
  · exact absurd rfl (hsign _)
  · cases hcs
    exact hread _ h
  · cases hcs
    exact hread _ h

end BoardScript.Decimal

namespace BoardScript

open Numeric

/-- A numeral does not begin with a sign. -/
theorem Lexical.no_sign {kind : TokenKind} {text : String} (h : Lexical kind text)
    (hfree : kind.isFree = true) (rest : List Char) : text.toList ≠ '-' :: rest := by
  intro htext
  obtain ⟨reading, -, hafter, hread⟩ := h
  rw [htext] at hafter
  obtain ⟨next, hstep, hrest⟩ := Option.bind_eq_some_iff.1 hafter
  have hopening : next = .opening '-' := (Option.some.inj hstep).symm
  subst hopening
  have hfixed : ∃ accepted, reading.accepts = some accepted ∧ accepted.isFree = false := by
    obtain ⟨accepted, haccepts, -⟩ := Option.map_eq_some_iff.1 hread
    refine ⟨accepted, haccepts, ?_⟩
    rcases Reading.after_opening hrest with rfl | ⟨k, rfl⟩
    · exact isFree_operatorOf (c := '-') haccepts
    · cases haccepts
      exact (Reading.after_operator hrest).resolve_left (by simp)
  obtain ⟨accepted, haccepts, haccepted⟩ := hfixed
  rw [Reading.isFree_kindOf haccepts haccepted hread] at hfree
  cases hfree

/-- The value of a numeral has no sign. -/
theorem unsigned_numeral {kind : TokenKind} {text : String} (h : Lexical kind text)
    (hfree : kind.isFree = true) : Unsigned (numeralValue text) := by
  unfold numeralValue
  cases hread : Decimal.read? text with
  | none =>
      show Unsigned (0.0 / 0.0)
      decide +kernel
  | some x => exact Decimal.unsigned_read (h.no_sign hfree) hread

/-- Numbers without a sign that share a place are the same. -/
theorem number_of_shares {x y : Float} (hx : Unsigned x) (hy : Unsigned y)
    (h : (Constant.number x).shares (.number y) = true) : x = y := by
  rcases Bool.or_eq_true_iff.1 h with h | h
  · exact Numeric.eq_of_beq hx hy h
  · obtain ⟨hx, hy⟩ := Bool.and_eq_true_iff.1 h
    exact Numeric.eq_of_isNaN hx hy

end BoardScript
