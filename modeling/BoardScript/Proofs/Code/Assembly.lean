/-
Putting code together. A constant is found on the table of constants, added
behind the others, or refused when all places are taken (`Registers`). So
while code is made the table only grows, and a place once given out keeps
its constant (`Yields`). Code
that stands at an offset of a chunk is read back there as it was written
(`Chunk.Has`, `Chunk.Instruction`).
-/
import BoardScript.Code.Compile

namespace BoardScript

-- ============================================================ registering

/-- What registering a constant comes to. -/
inductive Registers (constants : List Constant) (c : Constant) :
    Option (List Constant × Address) → Prop
  | found {kept : Constant} {address : Address}
      (hplace : constants[address.byte.toNat]? = some kept) (hshares : kept.shares c = true) :
      Registers constants c (some (constants, address))
  | added {address : Address} (hnew : ∀ kept ∈ constants, kept.shares c = false)
      (hroom : constants.length < 256) (haddress : address.byte.toNat = constants.length) :
      Registers constants c (some (constants ++ [c], address))
  | full (hnew : ∀ kept ∈ constants, kept.shares c = false) (hfull : constants.length = 256) :
      Registers constants c none

theorem registers {constants : List Constant} (h : constants.length ≤ 256) (c : Constant) :
    Registers constants c (registerConstant constants c) := by
  have hbyte : ∀ {place : Nat}, place < 256 → place.toUInt8.toNat = place := fun hplace => by
    simp [Nat.mod_eq_of_lt hplace]
  unfold registerConstant
  cases hindex : constants.findIdx? (·.shares c) with
  | some place =>
      obtain ⟨hlt, hshares, -⟩ := List.findIdx?_eq_some_iff_getElem.1 hindex
      have hplace : constants[place.toUInt8.toNat]? = some constants[place] := by
        rw [hbyte (Nat.lt_of_lt_of_le hlt h)]
        exact List.getElem?_eq_getElem hlt
      exact .found hplace hshares
  | none =>
      have hnew := List.findIdx?_eq_none_iff.1 hindex
      dsimp only
      split
      · rename_i hroom
        exact .added hnew hroom (hbyte hroom)
      · rename_i hroom
        exact .full hnew (Nat.le_antisymm h (Nat.le_of_not_lt hroom))

namespace Compile

-- ==================================================================== tables

/-- A table of constants: no more than there are places, each as it should
be. -/
structure Table (Fine : Constant → Prop) (constants : List Constant) : Prop where
  length : constants.length ≤ 256
  fine : ∀ c ∈ constants, Fine c

/-- What an assembly makes has a property, whatever the table of constants
grows to later. -/
def Yields {α : Type} (Fine : Constant → Prop) (x : Assembly α) (P : List Constant → α → Prop) :
    Prop :=
  ∀ constants a constants', Table Fine constants → x constants = .ok (a, constants') →
    Table Fine constants' ∧ constants <+: constants' ∧
      ∀ final, constants' <+: final → P final a

namespace Yields

variable {α β : Type} {Fine : Constant → Prop} {P : List Constant → α → Prop}
  {Q : List Constant → β → Prop}

theorem pure {a : α} (h : ∀ final, P final a) : Yields Fine (Pure.pure a) P := by
  intro constants a' constants' htable hx
  cases hx
  exact ⟨htable, List.prefix_refl _, fun final _ => h final⟩

theorem bind {x : Assembly α} {f : α → Assembly β} (hx : Yields Fine x P)
    (hf : ∀ a, Yields Fine (f a) fun final b => P final a → Q final b) :
    Yields Fine (x >>= f) Q := by
  intro constants b constants' htable h
  simp only [Bind.bind, StateT.bind, Except.bind] at h
  cases hr : x constants with
  | error e => rw [hr] at h; cases h
  | ok p =>
      obtain ⟨a, middle⟩ := p
      rw [hr] at h
      obtain ⟨hmiddle, hgrown, hP⟩ := hx _ _ _ htable hr
      obtain ⟨hlast, hgrown', hQ⟩ := hf a _ _ _ hmiddle h
      exact ⟨hlast, hgrown.trans hgrown', fun final hfinal =>
        hQ final hfinal (hP final (hgrown'.trans hfinal))⟩

theorem mono {P' : List Constant → α → Prop} {x : Assembly α} (hx : Yields Fine x P)
    (h : ∀ final a, P final a → P' final a) : Yields Fine x P' := by
  intro constants a constants' htable hr
  obtain ⟨hlast, hgrown, hP⟩ := hx _ _ _ htable hr
  exact ⟨hlast, hgrown, fun final hfinal => h final a (hP final hfinal)⟩

theorem throw {e : CompileError} : Yields Fine (MonadExcept.throw e : Assembly α) P := by
  intro constants a constants' _ h
  cases h

/-- A computation without a table of its own. -/
theorem bind_lift {x : Except CompileError α} {f : α → Assembly β}
    (h : ∀ a, x = .ok a → Yields Fine (f a) Q) :
    Yields Fine ((liftM x : Assembly α) >>= f) Q := by
  intro constants b constants' htable hr
  cases x with
  | error e => cases hr
  | ok a => exact h a rfl constants b constants' htable hr

end Yields

-- =============================================================== constants

/-- Constants that share a place are of one kind; only numbers may differ. -/
theorem shares_string {c : Constant} {text : String} (h : c.shares (.string text) = true) :
    c = .string text := by
  cases c with
  | string other => rw [of_decide_eq_true h]
  | _ => cases h

theorem getElem?_of_prefix {constants final : List Constant} (h : constants <+: final)
    {place : Nat} {c : Constant} (hc : constants[place]? = some c) : final[place]? = some c := by
  obtain ⟨more, rfl⟩ := h
  obtain ⟨hlt, -⟩ := List.getElem?_eq_some_iff.1 hc
  rw [List.getElem?_append_left hlt, hc]

variable {Fine : Constant → Prop}

/-- The constant at a place is as it should be, and it is the one that the
place was given out for, or shares it. -/
theorem yields_constant (value : Constant) (span : Span) (hvalue : Fine value) :
    Yields Fine (constant value span) fun final place =>
      ∃ c, final[place.toNat]? = some c ∧ Fine c ∧ (c = value ∨ c.shares value = true) := by
  intro constants place constants' htable h
  unfold constant at h
  cases hreg : registerConstant constants value with
  | none => rw [hreg] at h; cases h
  | some p =>
      obtain ⟨grown, address⟩ := p
      rw [hreg] at h
      cases h
      have hregisters := registers htable.length value
      rw [hreg] at hregisters
      cases hregisters with
      | @found kept _ hplace hshares =>
          exact ⟨htable, List.prefix_refl _, fun final hfinal =>
            ⟨kept, getElem?_of_prefix hfinal hplace, htable.fine _ (List.mem_of_getElem? hplace),
              .inr hshares⟩⟩
      | added _ hroom haddress =>
          refine ⟨⟨?_, ?_⟩, List.prefix_append _ _, fun final hfinal =>
            ⟨value, ?_, hvalue, .inl rfl⟩⟩
          · rw [List.length_append]
            exact hroom
          · exact List.forall_mem_append.2 ⟨htable.fine, List.forall_mem_singleton.2 hvalue⟩
          · rw [haddress]
            exact getElem?_of_prefix hfinal List.getElem?_concat_length

/-- The place of a text. -/
theorem yields_string (text : String) (span : Span) (htext : Fine (.string text)) :
    Yields Fine (constant (.string text) span) fun final place =>
      final[place.toNat]? = some (.string text) :=
  (yields_constant (.string text) span htext).mono fun _ _ ⟨c, hc, _, h⟩ => by
    rcases h with rfl | h
    · exact hc
    · rwa [shares_string h] at hc

/-- The place of a function. -/
theorem yields_function (literal : FunctionLiteral) (chunk : Chunk) (span : Span)
    (h : Fine (.function literal chunk)) :
    Yields Fine (constant (.function literal chunk) span) fun final place =>
      final[place.toNat]? = some (.function literal chunk) :=
  (yields_constant (.function literal chunk) span h).mono fun _ _ ⟨c, hc, _, h⟩ => by
    rcases h with rfl | h
    · exact hc
    · cases c <;> cases h

theorem yields_count (what : String) (n : Nat) (span : Span) :
    Yields Fine (count what n span) fun _ byte => byte.toNat = n := by
  unfold count
  split
  · refine .pure fun _ => ?_
    simp [Nat.mod_eq_of_lt ‹_›]
  · exact .throw

/-- The bytes of a distance. -/
def distanceCode (distance : Nat) : Code :=
  operand (distance / 256).toUInt8 ++ operand (distance % 256).toUInt8

theorem yields_jump (code : OpCode) (distance : Nat) (span : Span) :
    Yields Fine (jump code distance span) fun _ made =>
      distance < 65536 ∧ made = op code span ++ distanceCode distance := by
  unfold jump
  split
  · exact .pure fun _ => ⟨‹_›, by rw [distanceCode, List.append_assoc]⟩
  · exact .throw

theorem yields_withName (code : OpCode) (name : String) (span : Span)
    (hname : Fine (.string name)) :
    Yields Fine (withName code name span) fun final made => ∃ place,
      final[place.toNat]? = some (.string name) ∧ made = op code span ++ operand place :=
  (yields_string name span hname).bind fun place => .pure fun _ h => ⟨place, h, rfl⟩

/-- The code of an operator that always needs both operands. -/
theorem compile_binary {operator : BinaryOperator} (hand : operator ≠ .and) (hor : operator ≠ .or)
    (place : Place) (naming : Option String) (left right : Node) (span : Span) :
    (Node.binary operator left right span).compile place naming = do
      let left ← left.compile place none
      let right ← right.compile place none
      return left ++ right ++ op .binary span ++ operand operator.byte := by
  cases operator <;> first | rfl | exact absurd rfl hand | exact absurd rfl hor

/-- The code of the value that a return gives back. -/
def returned (place : Place) (value : Node) (span : Span) : Assembly Code :=
  if place.inFunction then value.compile place none else pure (op .undefined span)

theorem compile_returnValue (place : Place) (naming : Option String) (value : Node) (span : Span) :
    (Node.returnValue value span).compile place naming = do
      let value ← returned place value span
      return value ++ op .giveBack span := by
  rw [Node.compile, returned]
  split <;> rfl

end Compile

-- ================================================================= reading

namespace Chunk

open Compile

variable {chunk : Chunk} {offset : Nat}

/-- Code that stands in a chunk at an offset. -/
def Has (chunk : Chunk) (offset : Nat) (code : Code) : Prop :=
  ∀ i entry, code[i]? = some entry →
    chunk.code[offset + i]? = some entry.1 ∧ chunk.spans[offset + i]? = some entry.2

theorem has_append {a b : Code} :
    chunk.Has offset (a ++ b) ↔ chunk.Has offset a ∧ chunk.Has (offset + a.length) b := by
  constructor
  · intro h
    refine ⟨fun i entry hi => ?_, fun i entry hi => ?_⟩
    · refine h i entry ?_
      obtain ⟨hlt, -⟩ := List.getElem?_eq_some_iff.1 hi
      rwa [List.getElem?_append_left hlt]
    · rw [Nat.add_assoc]
      refine h (a.length + i) entry ?_
      rwa [List.getElem?_append_right (Nat.le_add_right _ _), Nat.add_sub_cancel_left]
  · rintro ⟨ha, hb⟩ i entry hi
    rcases Nat.lt_or_ge i a.length with hlt | hge
    · exact ha i entry (by rwa [List.getElem?_append_left hlt] at hi)
    · rw [List.getElem?_append_right hge] at hi
      have := hb (i - a.length) entry hi
      rwa [Nat.add_assoc, Nat.add_sub_cancel' hge] at this

/-- A chunk has the code it was made from. -/
theorem has_chunk (name : String) (source : Source) (code : Code) (constants : List Constant) :
    (Compile.chunk name source code constants).Has 0 code := by
  intro i entry hi
  simp [Compile.chunk, hi]

theorem readByte_of_has {byte : UInt8} {span : Option Span}
    (h : chunk.Has offset [(byte, span)]) : chunk.readByte offset = .ok byte := by
  have := (h 0 _ rfl).1
  rw [readByte, ← Nat.add_zero offset, this]

@[simp] theorem ofByte?_byte (code : OpCode) : OpCode.ofByte? code.byte = some code := by
  cases code <;> rfl

@[simp] theorem axis_ofByte?_byte (axis : Axis) : Axis.ofByte? axis.byte = some axis := by
  cases axis <;> rfl

@[simp] theorem operator_ofByte?_byte (operator : BinaryOperator) :
    BinaryOperator.ofByte? operator.byte = some operator := by
  cases operator <;> rfl

theorem readOpCode_of_has {code : OpCode} {span : Span} (h : chunk.Has offset (op code span)) :
    chunk.readOpCode offset = .ok (offset + 1, code) := by
  rw [readOpCode, readByte_of_has h]
  simp [Bind.bind, Except.bind]
  rfl

theorem spanAt_of_has {code : OpCode} {span : Span} (h : chunk.Has offset (op code span)) :
    chunk.spanAt offset = some span := by
  have := (h 0 _ rfl).2
  rw [spanAt, ← Nat.add_zero offset, this]
  rfl

/-- The instruction that stands at an offset: an opcode, the span it is
from, and the bytes of its operands. -/
structure Instruction (chunk : Chunk) (offset : Nat) (code : OpCode) (args : List UInt8)
    (span : Span) : Prop where
  opcode : chunk.readOpCode offset = .ok (offset + 1, code)
  span : chunk.spanAt offset = some span
  width : args.length = code.operandWidth
  operands : ∀ i byte, args[i]? = some byte → chunk.readByte (offset + 1 + i) = .ok byte

theorem instruction_of_has {code : OpCode} {args : List UInt8} {span : Span}
    (hwidth : args.length = code.operandWidth)
    (h : chunk.Has offset (op code span ++ args.map fun byte => (byte, none))) :
    chunk.Instruction offset code args span := by
  obtain ⟨hop, hargs⟩ := has_append.1 h
  refine ⟨readOpCode_of_has hop, spanAt_of_has hop, hwidth, fun i byte hi => ?_⟩
  have hread := (hargs i (byte, none) (by rw [List.getElem?_map, hi]; rfl)).1
  rw [show (op code span).length = 1 from rfl] at hread
  rw [readByte, hread]

theorem instruction_of_op {code : OpCode} {span : Span} (hwidth : code.operandWidth = 0)
    (h : chunk.Has offset (op code span)) : chunk.Instruction offset code [] span :=
  instruction_of_has hwidth.symm (by rwa [List.map_nil, List.append_nil])

theorem Instruction.next {code : OpCode} {args : List UInt8} {span : Span}
    (h : chunk.Instruction offset code args span) :
    chunk.nextInstruction offset = .ok (offset + 1 + args.length) := by
  rw [nextInstruction, h.opcode, h.width]
  rfl

-- ---------------------------------------------------------------- operands

section

variable {byte high low : UInt8}

theorem readU8_eq (h : chunk.readByte offset = .ok byte) :
    chunk.readU8 offset = .ok (offset + 1, byte) := by
  rw [readU8, h]
  rfl

theorem readU16_eq (hhigh : chunk.readByte offset = .ok high)
    (hlow : chunk.readByte (offset + 1) = .ok low) :
    chunk.readU16 offset = .ok (offset + 2, high.toNat * 256 + low.toNat) := by
  rw [readU16, hhigh]
  simp only [bind, Except.bind, hlow]
  rfl

theorem readAddress_eq (h : chunk.readByte offset = .ok byte) :
    chunk.readAddress offset = .ok (offset + 1, ⟨byte⟩) := by
  rw [readAddress, h]
  rfl

theorem constantAt_eq {c : Constant} (hc : chunk.constants[byte.toNat]? = some c) :
    chunk.constantAt ⟨byte⟩ = .ok c := by
  rw [constantAt, hc]

theorem readConstant_eq {c : Constant} (h : chunk.readByte offset = .ok byte)
    (hc : chunk.constants[byte.toNat]? = some c) :
    chunk.readConstant offset = .ok (offset + 1, c) := by
  rw [readConstant, readAddress_eq h]
  simp only [bind, Except.bind, constantAt_eq hc]
  rfl

theorem readName_eq {name : String} (h : chunk.readByte offset = .ok byte)
    (hc : chunk.constants[byte.toNat]? = some (.string name)) :
    chunk.readName offset = .ok (offset + 1, name) := by
  rw [readName, readConstant_eq h hc]
  rfl

theorem readAxis_eq {axis : Axis} (h : chunk.readByte offset = .ok byte)
    (haxis : Axis.ofByte? byte = some axis) : chunk.readAxis offset = .ok (offset + 1, axis) := by
  rw [readAxis, readU8_eq h]
  simp only [bind, Except.bind, haxis]
  rfl

theorem readOperator_eq {operator : BinaryOperator} (h : chunk.readByte offset = .ok byte)
    (hop : BinaryOperator.ofByte? byte = some operator) :
    chunk.readOperator offset = .ok (offset + 1, operator) := by
  rw [readOperator, readU8_eq h]
  simp only [bind, Except.bind, hop]
  rfl

end

end Chunk

end BoardScript
