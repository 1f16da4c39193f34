/-
Listings of any bytes. A listing reads code as it is read everywhere: where
an instruction can be written down, the offset behind it is that of the next
instruction and still within the code (`Chunk.of_renderInstruction`). So
going from instruction to instruction comes to the end of the code or to
something that cannot be read, and there are never more steps than bytes. A
chunk is listed if it is the former for it and for all the functions that it
holds (`Chunk.Listed`).
-/
import BoardScript.Proofs.Code.WellFormed
import Mathlib.Algebra.Ring.Nat

namespace BoardScript

-- ================================================================= offsets

/-- Whether a line begins with digits that read as an offset. -/
def TellsOffset (paint : Paint) (line : String) (offset : Nat) : Prop :=
  ∃ digits rest, line = paint.dim digits ++ " | " ++ rest ∧
    (∀ c ∈ digits.toList, c.isDigit = true) ∧ Nat.ofDigitChars 10 digits.toList 0 = offset

theorem isDigit_fourDigits {n : Nat} {c : Char} (hc : c ∈ (fourDigits n).toList) :
    c.isDigit = true := by
  rw [fourDigits, String.toList_ofList] at hc
  rcases List.mem_append.1 hc with hc | hc
  · rw [List.eq_of_mem_replicate hc]
    rfl
  · exact Nat.isDigit_of_mem_toDigits (by decide) (by decide) hc

/-- Zeros in front change nothing. -/
theorem read_fourDigits (n : Nat) : Nat.ofDigitChars 10 (fourDigits n).toList 0 = n := by
  rw [fourDigits, String.toList_ofList, Nat.ofDigitChars_append, Nat.ofDigitChars_replicate_zero,
    Nat.mul_zero, Nat.ofDigitChars_ten_toDigits]

/-- The operands of an opcode are as wide as they are counted. -/
theorem OpCode.operandWidth_eq (op : OpCode) :
    op.operandWidth = (op.operands.map Operand.width).sum := by
  cases op <;> rfl

namespace Chunk

variable {chunk : Chunk} {paint : Paint} {offset next : Nat} {text line : String}

-- ============================================================== instructions

theorem lt_of_readByte {byte : UInt8} (h : chunk.readByte offset = .ok byte) :
    offset < chunk.code.size := by
  unfold readByte at h
  split at h
  · exact (Array.getElem?_eq_some_iff.1 ‹_›).1
  · cases h

/-- The parts of a computation that gives something give something too. -/
theorem ok_of_bind {α β : Type} {x : Except CodeError α} {f : α → Except CodeError β} {b : β}
    (h : x >>= f = .ok b) : ∃ a, x = .ok a ∧ f a = .ok b := by
  cases x with
  | error cause => cases h
  | ok a => exact ⟨a, rfl, h⟩

theorem of_readU8 {byte : UInt8} (h : chunk.readU8 offset = .ok (next, byte)) :
    next = offset + 1 ∧ next ≤ chunk.code.size := by
  obtain ⟨b, hbyte, h⟩ := ok_of_bind h
  cases h
  exact ⟨rfl, lt_of_readByte hbyte⟩

theorem of_readU16 {distance : Nat} (h : chunk.readU16 offset = .ok (next, distance)) :
    next = offset + 2 ∧ next ≤ chunk.code.size := by
  obtain ⟨high, -, h⟩ := ok_of_bind h
  obtain ⟨low, hlow, h⟩ := ok_of_bind h
  cases h
  exact ⟨rfl, lt_of_readByte hlow⟩

theorem of_readAddress {address : Address} (h : chunk.readAddress offset = .ok (next, address)) :
    next = offset + 1 ∧ next ≤ chunk.code.size := by
  obtain ⟨b, hbyte, h⟩ := ok_of_bind h
  cases h
  exact ⟨rfl, lt_of_readByte hbyte⟩

theorem of_readAxis {axis : Axis} (h : chunk.readAxis offset = .ok (next, axis)) :
    next = offset + 1 ∧ next ≤ chunk.code.size := by
  obtain ⟨⟨behind, byte⟩, hbyte, h⟩ := ok_of_bind h
  dsimp only at h
  split at h <;> cases h
  exact of_readU8 hbyte

theorem of_readOperator {operator : BinaryOperator}
    (h : chunk.readOperator offset = .ok (next, operator)) :
    next = offset + 1 ∧ next ≤ chunk.code.size := by
  obtain ⟨⟨behind, byte⟩, hbyte, h⟩ := ok_of_bind h
  dsimp only at h
  split at h <;> cases h
  exact of_readU8 hbyte

theorem of_readOpCode {op : OpCode} (h : chunk.readOpCode offset = .ok (next, op)) :
    next = offset + 1 ∧ next ≤ chunk.code.size := by
  obtain ⟨byte, hbyte, h⟩ := ok_of_bind h
  split at h <;> cases h
  exact ⟨rfl, lt_of_readByte hbyte⟩

/-- An operand that can be written down has all its bytes in the code. -/
theorem of_renderOperand {operand : Operand}
    (h : chunk.renderOperand paint offset operand = .ok (next, text)) :
    next = offset + operand.width ∧ next ≤ chunk.code.size := by
  cases operand with
  | constant =>
      obtain ⟨⟨behind, address⟩, haddress, h⟩ := ok_of_bind h
      obtain ⟨value, -, h⟩ := ok_of_bind h
      cases h
      exact of_readAddress haddress
  | forward =>
      obtain ⟨⟨behind, distance⟩, hdistance, h⟩ := ok_of_bind h
      cases h
      exact of_readU16 hdistance
  | backward =>
      obtain ⟨⟨behind, distance⟩, hdistance, h⟩ := ok_of_bind h
      dsimp only at h
      split at h <;> cases h
      exact of_readU16 hdistance
  | axis =>
      obtain ⟨⟨behind, axis⟩, haxis, h⟩ := ok_of_bind h
      cases h
      exact of_readAxis haxis
  | operator =>
      obtain ⟨⟨behind, operator⟩, hoperator, h⟩ := ok_of_bind h
      cases h
      exact of_readOperator hoperator
  | count | arguments =>
      obtain ⟨⟨behind, count⟩, hcount, h⟩ := ok_of_bind h
      cases h
      exact of_readU8 hcount

theorem of_renderOperands {operands : List Operand} (hin : offset ≤ chunk.code.size)
    (h : chunk.renderOperands paint offset operands = .ok (next, text)) :
    next = offset + (operands.map Operand.width).sum ∧ next ≤ chunk.code.size := by
  induction operands generalizing offset text with
  | nil =>
      cases h
      exact ⟨rfl, hin⟩
  | cons operand rest ih =>
      obtain ⟨⟨middle, first⟩, hfirst, h⟩ := ok_of_bind h
      obtain ⟨⟨behind, more⟩, hmore, h⟩ := ok_of_bind h
      cases h
      obtain ⟨rfl, hmiddle⟩ := of_renderOperand hfirst
      obtain ⟨rfl, hbehind⟩ := ih hmiddle hmore
      refine ⟨?_, hbehind⟩
      rw [List.map_cons, List.sum_cons, Nat.add_assoc]

/-- Where an instruction can be written down, its line tells its offset, and
the offset behind it is that of the next instruction, within the code. -/
theorem of_renderInstruction (h : chunk.renderInstruction paint offset = .ok (next, line)) :
    chunk.nextInstruction offset = .ok next ∧ next ≤ chunk.code.size ∧
      TellsOffset paint line offset := by
  obtain ⟨⟨behind, op⟩, hop, h⟩ := ok_of_bind h
  obtain ⟨⟨last, operands⟩, hoperands, h⟩ := ok_of_bind h
  cases h
  obtain ⟨rfl, hin⟩ := of_readOpCode hop
  obtain ⟨rfl, hlast⟩ := of_renderOperands hin hoperands
  refine ⟨?_, hlast, fourDigits offset, paint.purple op.name ++ operands, ?_,
    fun _ hc => isDigit_fourDigits hc, read_fourDigits offset⟩
  · rw [nextInstruction, hop, ← op.operandWidth_eq]
    rfl
  · rw [String.append_assoc]

theorem lt_of_nextInstruction (h : chunk.nextInstruction offset = .ok next) : offset < next := by
  obtain ⟨⟨behind, op⟩, hop, h⟩ := ok_of_bind h
  cases h
  obtain ⟨rfl, -⟩ := of_readOpCode hop
  exact Nat.lt_of_lt_of_le (Nat.lt_succ_self offset) (Nat.le_add_right _ _)

-- ================================================================== walks

/-- The offsets met from one on by going to the next instruction each time,
until just behind the code. -/
inductive Walk (chunk : Chunk) : Nat → List Nat → Prop
  | done : Walk chunk chunk.code.size []
  | step {offset next : Nat} {offsets : List Nat} (hin : offset < chunk.code.size)
      (hnext : chunk.nextInstruction offset = .ok next) (h : Walk chunk next offsets) :
      Walk chunk offset (offset :: offsets)

/-- The line of the instruction at an offset. -/
def Line (chunk : Chunk) (paint : Paint) (offset : Nat) (line : String) : Prop :=
  ∃ next, chunk.renderInstruction paint offset = .ok (next, line)

/-- Lines, each with an end. -/
def ended (lines : List String) : String := String.join (lines.map (· ++ "\n"))

/-- Whether a text is what the code is written down as from an offset on: a
line for each offset of a walk to the end. -/
def Written (chunk : Chunk) (paint : Paint) (offset : Nat) (text : String) : Prop :=
  ∃ offsets lines, chunk.Walk offset offsets ∧ List.Forall₂ (chunk.Line paint) offsets lines ∧
    text = ended lines

theorem Walk.cases_offset {offsets : List Nat} (h : chunk.Walk offset offsets) :
    offset = chunk.code.size ∧ offsets = [] ∨
    ∃ next rest, offset < chunk.code.size ∧ chunk.nextInstruction offset = .ok next ∧
      chunk.Walk next rest ∧ offsets = offset :: rest := by
  cases h with
  | done => exact .inl ⟨rfl, rfl⟩
  | step hin hnext h => exact .inr ⟨_, _, hin, hnext, h, rfl⟩

theorem written_end : chunk.Written paint chunk.code.size text ↔ text = "" := by
  constructor
  · rintro ⟨offsets, lines, hwalk, hlines, rfl⟩
    rcases hwalk.cases_offset with ⟨-, rfl⟩ | ⟨next, rest, hlt, -⟩
    · cases hlines
      rfl
    · exact absurd hlt (Nat.lt_irrefl _)
  · rintro rfl
    exact ⟨[], [], .done, .nil, rfl⟩

theorem written_of_lt (hin : offset < chunk.code.size) :
    chunk.Written paint offset text ↔ ∃ next line rest,
      chunk.renderInstruction paint offset = .ok (next, line) ∧ chunk.Written paint next rest ∧
      text = line ++ "\n" ++ rest := by
  constructor
  · rintro ⟨offsets, lines, hwalk, hlines, rfl⟩
    rcases hwalk.cases_offset with ⟨heq, -⟩ | ⟨next, rest, -, hnext, hrest, rfl⟩
    · exact absurd hin (heq ▸ Nat.lt_irrefl _)
    · cases hlines with
      | cons hline hlines =>
          obtain ⟨behind, hline⟩ := hline
          obtain rfl : next = behind := by
            cases hnext.symm.trans (of_renderInstruction hline).1
            rfl
          exact ⟨next, _, _, hline, ⟨rest, _, hrest, hlines, rfl⟩, by simp [ended]⟩
  · rintro ⟨next, line, _, hline, ⟨offsets, lines, hwalk, hlines, rfl⟩, rfl⟩
    refine ⟨offset :: offsets, line :: lines, .step hin (of_renderInstruction hline).1 hwalk,
      .cons ⟨next, hline⟩ hlines, by simp [ended]⟩

/-- With as much fuel as there are bytes ahead, all of the code is written
down. -/
theorem renderFrom_eq_ok {fuel : Nat} (hin : offset ≤ chunk.code.size)
    (hfuel : chunk.code.size ≤ offset + fuel) :
    chunk.renderFrom paint fuel offset = .ok text ↔ chunk.Written paint offset text := by
  induction fuel generalizing offset text with
  | zero =>
      obtain rfl : offset = chunk.code.size := Nat.le_antisymm hin hfuel
      rw [written_end, renderFrom, Except.ok.injEq]
      exact eq_comm
  | succ fuel ih =>
      rw [renderFrom]
      split
      · rename_i hlt
        rw [written_of_lt hlt]
        constructor
        · intro h
          obtain ⟨⟨next, line⟩, hline, h⟩ := ok_of_bind h
          obtain ⟨rest, hrest, h⟩ := ok_of_bind h
          cases h
          obtain ⟨hnext, hle, -⟩ := of_renderInstruction hline
          have hfurther := lt_of_nextInstruction hnext
          exact ⟨next, line, rest, hline, (ih hle (by omega)).1 hrest, rfl⟩
        · rintro ⟨next, line, rest, hline, hrest, rfl⟩
          obtain ⟨hnext, hle, -⟩ := of_renderInstruction hline
          have hfurther := lt_of_nextInstruction hnext
          rw [hline]
          simp only [bind, Except.bind, (ih hle (by omega)).2 hrest]
          rfl
      · rename_i hge
        obtain rfl : offset = chunk.code.size := Nat.le_antisymm hin (Nat.le_of_not_lt hge)
        rw [written_end, Except.ok.injEq]
        exact eq_comm

/-- What keeps code from being written down is an instruction that cannot
be. -/
theorem renderFrom_eq_error {fuel : Nat} {cause : CodeError} (hoffset : chunk.Offset offset)
    (h : chunk.renderFrom paint fuel offset = .error cause) :
    ∃ place, chunk.Offset place ∧ place < chunk.code.size ∧
      chunk.renderInstruction paint place = .error cause := by
  induction fuel generalizing offset with
  | zero => cases h
  | succ fuel ih =>
      rw [renderFrom] at h
      split at h
      · rename_i hlt
        cases hline : chunk.renderInstruction paint offset with
        | error cause' =>
            rw [hline] at h
            cases h
            exact ⟨offset, hoffset, hlt, hline⟩
        | ok made =>
            rw [hline] at h
            cases hrest : chunk.renderFrom paint fuel made.1 with
            | error cause' =>
                simp only [bind, Except.bind, hrest] at h
                cases h
                exact ih (.next hoffset hlt (of_renderInstruction hline).1) hrest
            | ok rest =>
                simp only [bind, Except.bind, hrest] at h
                cases h
      · cases h

end Chunk

-- ================================================================ listings

mutual

/-- Whether a text is the listing of a chunk: the name, the lines of the
code, and behind them the listings of the functions that the chunk holds,
each with an empty line in front. -/
inductive Chunk.Listed (paint : Paint) : Chunk → String → Prop
  | mk {chunk : Chunk} {offsets : List Nat} {lines inner : List String}
      (hwalk : chunk.Walk 0 offsets) (hlines : List.Forall₂ (chunk.Line paint) offsets lines)
      (hinner : ListedAll paint chunk.constants inner) :
      Chunk.Listed paint chunk ("== " ++ chunk.name ++ " ==\n" ++ Chunk.ended lines ++
        String.join (inner.map ("\n" ++ ·)))

/-- Whether texts are the listings of the functions in a table, in the order
of the table. -/
inductive ListedAll (paint : Paint) : List Constant → List String → Prop
  | nil : ListedAll paint [] []
  | number {x : Float} {rest : List Constant} {texts : List String}
      (h : ListedAll paint rest texts) : ListedAll paint (.number x :: rest) texts
  | string {x : String} {rest : List Constant} {texts : List String}
      (h : ListedAll paint rest texts) : ListedAll paint (.string x :: rest) texts
  | function {literal : FunctionLiteral} {chunk : Chunk} {rest : List Constant} {text : String}
      {texts : List String} (hchunk : Chunk.Listed paint chunk text)
      (h : ListedAll paint rest texts) :
      ListedAll paint (.function literal chunk :: rest) (text :: texts)

end

/-- What has no listing of its own is passed over. -/
theorem listingAll_of_empty {paint : Paint} {c : Constant} {rest : List Constant}
    (hc : c.listing paint = .ok "") : listingAll paint (c :: rest) = listingAll paint rest := by
  rw [listingAll, hc]
  cases h : listingAll paint rest with
  | error cause => rfl
  | ok text => simp [bind, Except.bind, pure, Except.pure]

mutual

theorem listing_eq_ok (paint : Paint) : (chunk : Chunk) → (text : String) →
    (chunk.listing paint = .ok text ↔ chunk.Listed paint text)
  | ⟨name, source, code, spans, constants⟩, text => by
      let chunk : Chunk := ⟨name, source, code, spans, constants⟩
      have hlines {lines : String} : chunk.renderFrom paint code.size 0 = .ok lines ↔
          chunk.Written paint 0 lines :=
        Chunk.renderFrom_eq_ok (Nat.zero_le _) (Nat.le_add_left _ _)
      rw [Chunk.listing]
      constructor
      · intro h
        obtain ⟨lines, hrender, h⟩ := Chunk.ok_of_bind h
        obtain ⟨more, hmore, h⟩ := Chunk.ok_of_bind h
        cases h
        obtain ⟨offsets, lines, hwalk, hforall, rfl⟩ := hlines.1 hrender
        obtain ⟨inner, hinner, rfl⟩ := (listingAll_eq_ok paint constants more).1 hmore
        exact .mk hwalk hforall hinner
      · rintro ⟨hwalk, hforall, hinner⟩
        have hrender := hlines.2 ⟨_, _, hwalk, hforall, rfl⟩
        have hmore := (listingAll_eq_ok paint constants _).2 ⟨_, hinner, rfl⟩
        dsimp only
        rw [hrender, hmore]
        rfl

theorem listingAll_eq_ok (paint : Paint) : (constants : List Constant) → (text : String) →
    (listingAll paint constants = .ok text ↔
      ∃ inner, ListedAll paint constants inner ∧ text = String.join (inner.map ("\n" ++ ·)))
  | [], text => by
      rw [listingAll]
      constructor
      · rintro ⟨⟩
        exact ⟨[], .nil, rfl⟩
      · rintro ⟨_, ⟨⟩, rfl⟩
        rfl
  | .number x :: rest, text => by
      rw [listingAll_of_empty (by rw [Constant.listing]), listingAll_eq_ok paint rest text]
      constructor
      · rintro ⟨inner, hinner, rfl⟩
        exact ⟨inner, .number hinner, rfl⟩
      · rintro ⟨inner, ⟨⟩, rfl⟩
        exact ⟨inner, ‹_›, rfl⟩
  | .string x :: rest, text => by
      rw [listingAll_of_empty (by rw [Constant.listing]), listingAll_eq_ok paint rest text]
      constructor
      · rintro ⟨inner, hinner, rfl⟩
        exact ⟨inner, .string hinner, rfl⟩
      · rintro ⟨inner, ⟨⟩, rfl⟩
        exact ⟨inner, ‹_›, rfl⟩
  | .function literal chunk :: rest, text => by
      rw [listingAll, Constant.listing]
      constructor
      · intro h
        obtain ⟨first, hfirst, h⟩ := Chunk.ok_of_bind h
        obtain ⟨lines, hlines, hfirst⟩ := Chunk.ok_of_bind hfirst
        obtain ⟨more, hmore, h⟩ := Chunk.ok_of_bind h
        cases hfirst
        cases h
        obtain ⟨inner, hinner, rfl⟩ := (listingAll_eq_ok paint rest more).1 hmore
        exact ⟨lines :: inner, .function ((listing_eq_ok paint chunk lines).1 hlines) hinner,
          by simp⟩
      · rintro ⟨_, hall, rfl⟩
        cases hall with
        | @function _ _ _ lines inner hchunk hinner =>
            have hlines := (listing_eq_ok paint chunk lines).2 hchunk
            have hmore := (listingAll_eq_ok paint rest _).2 ⟨inner, hinner, rfl⟩
            rw [hlines, hmore]
            simp [bind, Except.bind, pure, Except.pure]

end

/-- Whether an instruction of a chunk cannot be written down, and why. -/
def Chunk.Refuses (paint : Paint) (chunk : Chunk) (cause : CodeError) : Prop :=
  ∃ offset, chunk.Offset offset ∧ offset < chunk.code.size ∧
    chunk.renderInstruction paint offset = .error cause

mutual

theorem listing_eq_error (paint : Paint) : (chunk : Chunk) → (cause : CodeError) →
    chunk.listing paint = .error cause → ∃ inner, chunk.Reaches inner ∧ inner.Refuses paint cause
  | ⟨name, source, code, spans, constants⟩, cause, h => by
      let chunk : Chunk := ⟨name, source, code, spans, constants⟩
      rw [Chunk.listing] at h
      cases hlines : chunk.renderFrom paint code.size 0 with
      | error cause' =>
          rw [hlines] at h
          cases h
          exact ⟨_, .refl _, Chunk.renderFrom_eq_error .start hlines⟩
      | ok lines =>
          rw [hlines] at h
          cases hmore : listingAll paint constants with
          | ok more =>
              rw [hmore] at h
              cases h
          | error cause' =>
              rw [hmore] at h
              cases h
              obtain ⟨literal, body, inner, hmem, hreach, hrefuses⟩ :=
                listingAll_eq_error paint constants cause hmore
              exact ⟨inner, .step hmem hreach, hrefuses⟩

theorem listingAll_eq_error (paint : Paint) : (constants : List Constant) → (cause : CodeError) →
    listingAll paint constants = .error cause → ∃ literal body inner,
      .function literal body ∈ constants ∧ body.Reaches inner ∧ inner.Refuses paint cause
  | [], cause, h => by
      rw [listingAll] at h
      cases h
  | .number x :: rest, cause, h => by
      rw [listingAll_of_empty (by rw [Constant.listing])] at h
      obtain ⟨literal, body, inner, hmem, hrest⟩ := listingAll_eq_error paint rest cause h
      exact ⟨literal, body, inner, List.mem_cons_of_mem _ hmem, hrest⟩
  | .string x :: rest, cause, h => by
      rw [listingAll_of_empty (by rw [Constant.listing])] at h
      obtain ⟨literal, body, inner, hmem, hrest⟩ := listingAll_eq_error paint rest cause h
      exact ⟨literal, body, inner, List.mem_cons_of_mem _ hmem, hrest⟩
  | .function literal chunk :: rest, cause, h => by
      rw [listingAll, Constant.listing] at h
      cases hchunk : chunk.listing paint with
      | error cause' =>
          rw [hchunk] at h
          cases h
          obtain ⟨inner, hreach, hrefuses⟩ := listing_eq_error paint chunk cause hchunk
          exact ⟨literal, chunk, inner, List.mem_cons_self, hreach, hrefuses⟩
      | ok text =>
          rw [hchunk] at h
          cases hrest : listingAll paint rest with
          | ok more =>
              rw [hrest] at h
              cases h
          | error cause' =>
              rw [hrest] at h
              cases h
              obtain ⟨other, body, inner, hmem, hinner⟩ :=
                listingAll_eq_error paint rest cause hrest
              exact ⟨other, body, inner, List.mem_cons_of_mem _ hmem, hinner⟩

end

/-- Listings of whatever bytes decode them. Where the instruction at an offset
can be written down, the offset behind it is that of the next instruction and
within the code, and the line tells the offset. What is listed is a line for
each offset of a walk to the very end of the code, and then the functions
among the constants, and nothing less; and if there is no listing then there
is an instruction that cannot be read. -/
theorem listing_decodes (chunk : Chunk) (paint : Paint) :
    (∀ offset next line, chunk.renderInstruction paint offset = .ok (next, line) →
      chunk.nextInstruction offset = .ok next ∧ next ≤ chunk.code.size ∧
        TellsOffset paint line offset) ∧
    (∀ text, chunk.listing paint = .ok text ↔ chunk.Listed paint text) ∧
    ∀ cause, chunk.listing paint = .error cause →
      ∃ inner, chunk.Reaches inner ∧ inner.Refuses paint cause :=
  ⟨fun _ _ _ h => Chunk.of_renderInstruction h, listing_eq_ok paint chunk,
    listing_eq_error paint chunk⟩

end BoardScript
