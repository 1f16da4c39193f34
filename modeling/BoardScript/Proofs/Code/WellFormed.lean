/-
Well-formed chunks. Read from its beginning, the code of a chunk falls
into instructions, each with a span of its own, and the stack can be given
a shape in front of every instruction such that each of them fits
(`Chunk.WellFormed`): its operands are there and of the kinds it needs, it
takes no more than there is, and wherever it leads there is an instruction
with the shape that it leaves. In front of a return and of the end there
is exactly one value.

Whatever compiling makes is well formed, and so is every chunk among its
constants (`Node.Proper.compiled`, `Chunk.Made.reaches`).
-/
import BoardScript.Proofs.Code.Balanced

namespace BoardScript

open Compile

namespace Chunk

-- ============================================================= instructions

/-- The offsets of instructions, one behind the other from the beginning,
and the one behind the last. -/
inductive Offset (chunk : Chunk) : Nat → Prop
  | start : Offset chunk 0
  | next {offset behind : Nat} (h : Offset chunk offset) (hin : offset < chunk.code.size)
      (hnext : chunk.nextInstruction offset = .ok behind) : Offset chunk behind

/-- Shapes for the stack, one in front of every instruction, that all
instructions fit. -/
structure Shapes (chunk : Chunk) (shapes : Nat → Option Shape) : Prop where
  start : shapes 0 = some []
  offsets : ∀ offset, (shapes offset).isSome = true ↔ chunk.Offset offset ∧ offset < chunk.code.size
  fits : ∀ offset shape, shapes offset = some shape → ∃ op args span,
    chunk.Instruction offset op args span ∧
      Step.Fits chunk.constants shapes (offset + 1 + args.length) op args shape

/-- A chunk that falls into instructions which all fit. -/
structure WellFormed (chunk : Chunk) : Prop where
  next : ∀ offset, chunk.Offset offset → offset < chunk.code.size →
    ∃ behind ≤ chunk.code.size, chunk.nextInstruction offset = .ok behind
  whole : chunk.Offset chunk.code.size
  spans : ∀ offset, (chunk.spanAt offset).isSome = true ↔
    chunk.Offset offset ∧ offset < chunk.code.size
  shapes : ∃ shapes, chunk.Shapes shapes

/-- A chunk, and the chunks of the functions among its constants, and of
those among theirs. -/
inductive Reaches : Chunk → Chunk → Prop
  | refl (chunk : Chunk) : Reaches chunk chunk
  | step {chunk body inner : Chunk} {literal : FunctionLiteral}
      (hmem : .function literal body ∈ chunk.constants) (h : Reaches body inner) :
      Reaches chunk inner

end Chunk

-- ================================================================== layouts

theorem Step.Fits.width {constants : List Constant} {at' : Nat → Option Shape} {next : Nat}
    {op : OpCode} {args : List UInt8} {shape : Shape} (h : Fits constants at' next op args shape) :
    args.length = op.operandWidth := by
  cases h <;> rfl

/-- The shapes that instructions are given with, each at its offset. -/
def shapeAt : List Step → Nat → Option Shape
  | [], _ => none
  | s :: _, 0 => some s.shape
  | s :: rest, offset + 1 =>
      if offset + 1 < s.width then none else shapeAt rest (offset + 1 - s.width)

theorem shapeAt_behind (before : List Step) (s : Step) (rest : List Step) :
    shapeAt (before ++ s :: rest) (codeOf before).length = some s.shape := by
  induction before with
  | nil => rfl
  | cons t before ih =>
      have hwidth : 0 < t.width := by rw [Step.width]; omega
      rw [codeOf_cons, List.length_append, Step.length_code]
      obtain ⟨k, hk⟩ := Nat.exists_eq_add_of_lt hwidth
      rw [show t.width + (codeOf before).length = k + (codeOf before).length + 1 by omega,
        List.cons_append, shapeAt, if_neg (by omega), ← ih]
      congr 1
      omega

theorem exists_of_shapeAt {steps : List Step} {offset : Nat} {shape : Shape}
    (h : shapeAt steps offset = some shape) :
    ∃ before s rest, steps = before ++ s :: rest ∧ offset = (codeOf before).length ∧
      s.shape = shape := by
  fun_induction shapeAt steps offset with
  | case1 => cases h
  | case2 s rest => exact ⟨[], s, rest, rfl, rfl, Option.some.inj h⟩
  | case3 s rest offset hlt => cases h
  | case4 s rest offset hle ih =>
      obtain ⟨before, t, rest', rfl, hoffset, hshape⟩ := ih h
      refine ⟨s :: before, t, rest', rfl, ?_, hshape⟩
      rw [codeOf_cons, List.length_append, Step.length_code]
      omega

theorem shaped_shapeAt (before steps : List Step) :
    Shaped (shapeAt (before ++ steps)) none (codeOf before).length steps := by
  induction steps generalizing before with
  | nil => exact fun s hs => nomatch hs
  | cons s rest ih =>
      refine ⟨shapeAt_behind before s rest, ?_⟩
      have h := ih (before ++ [s])
      simp only [codeOf_append, codeOf_cons, codeOf_nil, List.append_nil, List.length_append,
        Step.length_code, List.append_assoc, List.singleton_append] at h
      exact h

/-- A byte with a span is the opcode of an instruction. -/
theorem exists_of_span {steps : List Step} {offset : Nat} {byte : UInt8} {span : Span}
    (h : (codeOf steps)[offset]? = some (byte, some span)) :
    ∃ before s rest, steps = before ++ s :: rest ∧ offset = (codeOf before).length := by
  induction steps generalizing offset with
  | nil => cases h
  | cons s rest ih =>
      rw [codeOf_cons] at h
      rcases Nat.lt_or_ge offset s.code.length with hlt | hge
      · rw [List.getElem?_append_left hlt] at h
        cases offset with
        | zero => exact ⟨[], s, rest, rfl, rfl⟩
        | succ offset =>
            rw [Step.code, op, List.singleton_append, List.getElem?_cons_succ, List.getElem?_map,
              Option.map_eq_some_iff] at h
            obtain ⟨_, -, h⟩ := h
            cases h
      · rw [List.getElem?_append_right hge] at h
        obtain ⟨before, t, rest', rfl, hoffset⟩ := ih h
        refine ⟨s :: before, t, rest', rfl, ?_⟩
        rw [codeOf_cons, List.length_append]
        omega

section

variable {name : String} {source : Source} {constants : List Constant} {steps : List Step}

@[simp] theorem size_chunk (code : Code) :
    (Compile.chunk name source code constants).code.size = code.length := by
  simp [Compile.chunk]

theorem length_codeOf_behind (before : List Step) (s : Step) (rest : List Step) :
    (codeOf (before ++ s :: rest)).length =
      (codeOf before).length + (1 + s.args.length) + (codeOf rest).length := by
  rw [codeOf_append, codeOf_cons, List.length_append, List.length_append, Step.length_code, Step.width,
    ← Nat.add_assoc]

/-- The instruction behind the first few. -/
theorem instruction_behind {before rest : List Step} {s : Step}
    (hwidth : s.args.length = s.op.operandWidth) (hsteps : steps = before ++ s :: rest) :
    (Compile.chunk name source (codeOf steps) constants).Instruction (codeOf before).length s.op
      s.args s.span := by
  have hhas := Chunk.has_chunk name source (codeOf steps) constants
  rw [hsteps, codeOf_append, codeOf_cons, Chunk.has_append, Nat.zero_add, Chunk.has_append] at hhas
  rw [hsteps, codeOf_append, codeOf_cons]
  exact Chunk.instruction_of_has hwidth hhas.2.1

/-- Offsets are the ends of the first few instructions. -/
theorem offset_iff (hwidth : ∀ s ∈ steps, s.args.length = s.op.operandWidth) {offset : Nat} :
    (Compile.chunk name source (codeOf steps) constants).Offset offset ↔
      ∃ before rest, steps = before ++ rest ∧ offset = (codeOf before).length := by
  constructor
  · intro h
    induction h with
    | start => exact ⟨[], steps, rfl, rfl⟩
    | @next offset behind _ hin hnext ih =>
        obtain ⟨before, rest, hsteps, rfl⟩ := ih
        cases rest with
        | nil =>
            rw [List.append_nil] at hsteps
            rw [size_chunk, hsteps] at hin
            exact absurd hin (Nat.lt_irrefl _)
        | cons s rest =>
            have hs : s ∈ steps := hsteps ▸ List.mem_append_right _ List.mem_cons_self
            rw [(instruction_behind (hwidth s hs) hsteps).next] at hnext
            cases hnext
            refine ⟨before ++ [s], rest, by rw [hsteps, List.append_assoc]; rfl, ?_⟩
            simp [Step.length_code, Step.width, Nat.add_assoc]
  · rintro ⟨before, rest, hsteps, rfl⟩
    induction before using List.reverseRecOn generalizing rest with
    | nil => exact .start
    | append_singleton before s ih =>
        rw [List.append_assoc, List.singleton_append] at hsteps
        have hs : s ∈ steps := hsteps ▸ List.mem_append_right _ List.mem_cons_self
        refine .next (ih (s :: rest) hsteps) ?_ ?_
        · rw [size_chunk, hsteps, length_codeOf_behind]
          omega
        · rw [(instruction_behind (hwidth s hs) hsteps).next]
          simp [Step.length_code, Step.width, Nat.add_assoc]

/-- An offset within the code is that of an instruction. -/
theorem offset_lt_iff (hwidth : ∀ s ∈ steps, s.args.length = s.op.operandWidth) {offset : Nat} :
    (Compile.chunk name source (codeOf steps) constants).Offset offset ∧
        offset < (Compile.chunk name source (codeOf steps) constants).code.size ↔
      ∃ before s rest, steps = before ++ s :: rest ∧ offset = (codeOf before).length := by
  rw [offset_iff hwidth, size_chunk]
  constructor
  · rintro ⟨⟨before, rest, hsteps, rfl⟩, hlt⟩
    cases rest with
    | nil =>
        rw [hsteps, List.append_nil] at hlt
        exact absurd hlt (Nat.lt_irrefl _)
    | cons s rest => exact ⟨before, s, rest, hsteps, rfl⟩
  · rintro ⟨before, s, rest, rfl, rfl⟩
    refine ⟨⟨before, s :: rest, rfl, rfl⟩, ?_⟩
    rw [length_codeOf_behind]
    omega

/-- Instructions that fit the shapes they are given with. -/
theorem shapes_chunk (hfits : Fitting constants (shapeAt steps) 0 steps)
    (hwidth : ∀ s ∈ steps, s.args.length = s.op.operandWidth)
    (hfirst : shapeAt steps 0 = some []) :
    (Compile.chunk name source (codeOf steps) constants).Shapes (shapeAt steps) := by
  refine ⟨hfirst, fun offset => ?_, fun offset shape h => ?_⟩
  · rw [offset_lt_iff hwidth, Option.isSome_iff_exists]
    constructor
    · rintro ⟨shape, h⟩
      obtain ⟨before, s, rest, hsteps, hoffset, -⟩ := exists_of_shapeAt h
      exact ⟨before, s, rest, hsteps, hoffset⟩
    · rintro ⟨before, s, rest, rfl, rfl⟩
      exact ⟨_, shapeAt_behind before s rest⟩
  · obtain ⟨before, s, rest, hsteps, rfl, rfl⟩ := exists_of_shapeAt h
    have hs : s ∈ steps := hsteps ▸ List.mem_append_right _ List.mem_cons_self
    refine ⟨s.op, s.args, s.span, instruction_behind (hwidth s hs) hsteps, ?_⟩
    have hfit := hfits
    rw [hsteps, fitting_append] at hfit
    rw [Nat.add_assoc, hsteps]
    have := hfit.2.1
    rwa [Nat.zero_add] at this

/-- Instructions from an offset on have the widths of their opcodes. -/
theorem Fitting.width {at' : Nat → Option Shape} {offset : Nat}
    (h : Fitting constants at' offset steps) :
    ∀ s ∈ steps, s.args.length = s.op.operandWidth := by
  induction steps generalizing offset with
  | nil => exact fun s hs => nomatch hs
  | cons s rest ih =>
      intro t ht
      rcases List.mem_cons.1 ht with rfl | ht
      · exact h.1.width
      · exact ih h.2 t ht

theorem wellFormed_codeOf (hfits : Fitting constants (shapeAt steps) 0 steps)
    (hfirst : shapeAt steps 0 = some []) :
    (Compile.chunk name source (codeOf steps) constants).WellFormed := by
  have hwidth := hfits.width
  refine ⟨fun offset ho hin => ?_, ?_, fun offset => ?_,
    shapeAt steps, shapes_chunk hfits hwidth hfirst⟩
  · obtain ⟨before, s, rest, hsteps, rfl⟩ := (offset_lt_iff hwidth).1 ⟨ho, hin⟩
    have hs : s ∈ steps := hsteps ▸ List.mem_append_right _ List.mem_cons_self
    refine ⟨_, ?_, (instruction_behind (hwidth s hs) hsteps).next⟩
    rw [size_chunk, hsteps, length_codeOf_behind]
    omega
  · rw [size_chunk, offset_iff hwidth]
    exact ⟨steps, [], (List.append_nil _).symm, rfl⟩
  · rw [offset_lt_iff hwidth, Option.isSome_iff_exists]
    constructor
    · rintro ⟨span, h⟩
      have hentry : ∃ byte, (codeOf steps)[offset]? = some (byte, some span) := by
        simp only [Chunk.spanAt, Compile.chunk, List.getElem?_toArray, List.getElem?_map,
          Option.join_eq_some_iff, Option.map_eq_some_iff] at h
        obtain ⟨⟨byte, _⟩, hbyte, rfl⟩ := h
        exact ⟨byte, hbyte⟩
      obtain ⟨byte, hbyte⟩ := hentry
      exact exists_of_span hbyte
    · rintro ⟨before, s, rest, rfl, rfl⟩
      have hs : s ∈ before ++ s :: rest := List.mem_append_right _ List.mem_cons_self
      exact ⟨s.span, (instruction_behind (hwidth s hs) rfl).span⟩

/-- Code that leaves one value, with a return or the end behind it. -/
theorem wellFormed_chunk {code : Code} (h : Leads constants code [] [.any]) (last : OpCode)
    (span : Span) (hlast : ∀ at' next, Step.Fits constants at' next last [] [.any]) :
    (Compile.chunk name source (code ++ op last span) constants).WellFormed := by
  obtain ⟨steps, rfl, hentry, hfits⟩ := h
  let all := steps ++ [⟨last, [], span, [.any]⟩]
  have hshaped : Shaped (shapeAt all) none 0 all := shaped_shapeAt [] all
  have hfitting : Fitting constants (shapeAt all) 0 all :=
    fitting_append.2 ⟨hfits _ _ hshaped.split.1, hlast _ _, trivial⟩
  have hfirst : shapeAt all 0 = some [] := by
    cases steps with
    | nil => cases hentry
    | cons s steps => exact hentry
  have hcode : codeOf steps ++ op last span = codeOf all := by
    rw [codeOf_append]
    rfl
  rw [hcode]
  exact wellFormed_codeOf hfitting hfirst

end

-- ============================================================ compiled code

/-- A chunk as compiling makes it. -/
structure Chunk.Made (source : Source) (chunk : Chunk) : Prop where
  wellFormed : chunk.WellFormed
  constants : ∀ c ∈ chunk.constants, BoardScript.Made source c

/-- The code of a node that stands alone, with the constants it was made
with. -/
theorem Node.Proper.compiled {node : Node} (h : node.Proper .anything) {place : Place}
    {code : Code} {constants : List Constant}
    (hcode : (node.compile place none).run [] = .ok (code, constants)) :
    Leads constants code [] [.any] ∧ ∀ c ∈ constants, Made place.source c := by
  obtain ⟨htable, -, hleads⟩ := h.leaves [] (fun _ => rfl) none [] code constants
    ⟨Nat.zero_le _, fun c hc => nomatch hc⟩ hcode
  exact ⟨hleads constants (List.prefix_refl _), htable.fine⟩

theorem made_of_compileScript {source : Source} {root : Node} {chunk : Chunk}
    (hroot : root.Proper .anything) (h : compileScript source root = .ok chunk) :
    chunk.Made source := by
  unfold compileScript at h
  cases hcode : (root.compile ⟨source, false⟩ none).run [] with
  | error e => rw [hcode] at h; cases h
  | ok made =>
      rw [hcode] at h
      cases h
      obtain ⟨hleads, hmade⟩ := hroot.compiled hcode
      exact ⟨wellFormed_chunk hleads .stop _ fun _ _ => .stop, hmade⟩

/-- The chunk of a literal: the code of its body, with a value and a return
behind it. The body of a map is a formula. -/
theorem exists_of_compile {source : Source} {literal : FunctionLiteral} {chunk : Chunk}
    (h : literal.compile source = .ok chunk) :
    (literal.isMap = true → literal.body.notFormula = none) ∧ ∃ code constants name,
      (literal.body.compile ⟨source, true⟩ none).run [] = .ok (code, constants) ∧
      chunk = Compile.chunk name source
        ((if literal.isMap then code
          else code ++ op .pop literal.body.span ++ op .undefined literal.body.span) ++
          op .giveBack literal.body.span) constants := by
  unfold FunctionLiteral.compile functionChunk at h
  cases hmap : literal.isMap with
  | true =>
      cases hformula : literal.body.notFormula with
      | some node =>
          rw [hmap, hformula] at h
          cases h
      | none =>
          cases hcode : (literal.body.compile ⟨source, true⟩ none).run [] with
          | error e =>
              rw [hmap, hformula, hcode] at h
              cases h
          | ok made =>
              rw [hmap, hformula, hcode] at h
              cases h
              exact ⟨fun _ => rfl, made.1, made.2, _, rfl, rfl⟩
  | false =>
      cases hcode : (literal.body.compile ⟨source, true⟩ none).run [] with
      | error e =>
          rw [hmap, hcode] at h
          cases h
      | ok made =>
          rw [hmap, hcode] at h
          cases h
          exact ⟨fun h => (nomatch h), made.1, made.2, _, rfl, rfl⟩

theorem made_of_compile {source : Source} {literal : FunctionLiteral} {chunk : Chunk}
    (hliteral : literal.Proper .anything) (h : literal.compile source = .ok chunk) :
    chunk.Made source := by
  obtain ⟨-, code, constants, name, hcode, rfl⟩ := exists_of_compile h
  obtain ⟨hleads, hmade⟩ := hliteral.body.compiled hcode
  refine ⟨wellFormed_chunk ?_ .giveBack _ fun _ _ => .giveBack, hmade⟩
  split
  · exact hleads
  · exact (hleads.dropped _).append (.undefined [] _)

/-- All that is reached from what compiling makes is made by compiling. -/
theorem Chunk.Made.reaches {source : Source} {chunk inner : Chunk} (h : chunk.Made source)
    (hr : chunk.Reaches inner) : inner.Made source := by
  induction hr with
  | refl chunk => exact h
  | step hmem _ ih =>
      obtain ⟨hliteral, hcompile⟩ := h.constants _ hmem
      exact ih (made_of_compile hliteral hcompile)

-- ================================================================ listings

namespace Chunk

variable {chunk : Chunk} {paint : Paint} {offset behind : Nat}

/-- Operands that can be listed, up to the offset behind them. -/
def Lists (chunk : Chunk) (paint : Paint) (offset : Nat) (operands : List Operand)
    (behind : Nat) : Prop :=
  ∃ text, chunk.renderOperands paint offset operands = .ok (behind, text)

namespace Lists

theorem nil : chunk.Lists paint offset [] offset := ⟨_, rfl⟩

theorem cons {operand : Operand} {rest : List Operand} {middle : Nat} {text : String}
    (h : chunk.renderOperand paint offset operand = .ok (middle, text))
    (hrest : chunk.Lists paint middle rest behind) :
    chunk.Lists paint offset (operand :: rest) behind := by
  obtain ⟨more, hmore⟩ := hrest
  refine ⟨" " ++ text ++ more, ?_⟩
  rw [renderOperands, h]
  simp only [bind, Except.bind, hmore]
  rfl

variable {byte high low : UInt8} {rest : List Operand}

theorem constant {c : Constant} (hb : chunk.readByte offset = .ok byte)
    (hc : chunk.constants[byte.toNat]? = some c) (hrest : chunk.Lists paint (offset + 1) rest behind) :
    chunk.Lists paint offset (.constant :: rest) behind := by
  have hrender : chunk.renderOperand paint offset .constant
      = .ok (offset + 1, paint.green (Address.text ⟨byte⟩) ++ " = " ++ paint.blue c.text) := by
    rw [renderOperand, readAddress_eq hb]
    simp only [bind, Except.bind, constantAt_eq hc]
    rfl
  exact cons hrender hrest

theorem text (hb : chunk.readByte offset = .ok byte) (hc : Step.Text chunk.constants byte)
    (hrest : chunk.Lists paint (offset + 1) rest behind) :
    chunk.Lists paint offset (.constant :: rest) behind :=
  hc.elim fun _ hc => constant hb hc hrest

theorem count (hb : chunk.readByte offset = .ok byte)
    (hrest : chunk.Lists paint (offset + 1) rest behind) :
    chunk.Lists paint offset (.count :: rest) behind :=
  cons (by rw [renderOperand, readU8_eq hb]; rfl) hrest

theorem arguments (hb : chunk.readByte offset = .ok byte)
    (hrest : chunk.Lists paint (offset + 1) rest behind) :
    chunk.Lists paint offset (.arguments :: rest) behind :=
  cons (by rw [renderOperand, readU8_eq hb]; rfl) hrest

theorem axis {a : Axis} (hb : chunk.readByte offset = .ok byte) (ha : Axis.ofByte? byte = some a)
    (hrest : chunk.Lists paint (offset + 1) rest behind) :
    chunk.Lists paint offset (.axis :: rest) behind :=
  cons (by rw [renderOperand, readAxis_eq hb ha]; rfl) hrest

theorem operator {o : BinaryOperator} (hb : chunk.readByte offset = .ok byte)
    (ho : BinaryOperator.ofByte? byte = some o)
    (hrest : chunk.Lists paint (offset + 1) rest behind) :
    chunk.Lists paint offset (.operator :: rest) behind :=
  cons (by rw [renderOperand, readOperator_eq hb ho]; rfl) hrest

theorem forward (hhigh : chunk.readByte offset = .ok high)
    (hlow : chunk.readByte (offset + 1) = .ok low)
    (hrest : chunk.Lists paint (offset + 2) rest behind) :
    chunk.Lists paint offset (.forward :: rest) behind :=
  cons (by rw [renderOperand, readU16_eq hhigh hlow]; rfl) hrest

theorem backward (hhigh : chunk.readByte offset = .ok high)
    (hlow : chunk.readByte (offset + 1) = .ok low) (hback : Step.distance high low ≤ offset + 2)
    (hrest : chunk.Lists paint (offset + 2) rest behind) :
    chunk.Lists paint offset (.backward :: rest) behind := by
  have hrender : chunk.renderOperand paint offset .backward
      = .ok (offset + 2, paint.green ("-> " ++ fourDigits (offset + 2 - Step.distance high low))) := by
    rw [renderOperand, readU16_eq hhigh hlow]
    exact if_pos hback
  exact cons hrender hrest

end Lists

/-- An instruction that fits has operands that can be listed. -/
theorem lists_of_fits {shapes : Nat → Option Shape} {shape : Shape} {op : OpCode}
    {args : List UInt8} {span : Span} (h : chunk.Instruction offset op args span)
    (hfits : Step.Fits chunk.constants shapes (offset + 1 + args.length) op args shape) :
    chunk.Lists paint (offset + 1) op.operands (offset + 1 + args.length) := by
  cases hfits with
  | undefined | yes | no | pop | getIndex | setIndex | negate | not | delete | giveBack | stop =>
      exact .nil
  | number x hc => exact .constant (h.operands 0 _ rfl) hc .nil
  | closure literal chunk hc => exact .constant (h.operands 0 _ rfl) hc .nil
  | text hc | key hc | getName hc | getCallee hc | useBoard hc | setLocal hc | getProperty hc
  | setProperty hc => exact .text (h.operands 0 _ rfl) hc .nil
  | coordinate axis hb => exact .axis (h.operands 0 _ rfl) hb .nil
  | binary operator hb => exact .operator (h.operands 0 _ rfl) hb .nil
  | jump | jumpIfFalse => exact .forward (h.operands 0 _ rfl) (h.operands 1 _ rfl) .nil
  | loop hback => exact .backward (h.operands 0 _ rfl) (h.operands 1 _ rfl) hback .nil
  | array | object | attributes => exact .count (h.operands 0 _ rfl) .nil
  | call hc | callWithAttributes hc =>
      exact .arguments (h.operands 0 _ rfl) (.text (h.operands 1 _ rfl) hc .nil)
  | callNamed hc hname =>
      exact .arguments (h.operands 0 _ rfl)
        (.text (h.operands 1 _ rfl) hc (.text (h.operands 2 _ rfl) hname .nil))

theorem Shapes.renderInstruction {shapes : Nat → Option Shape} (h : chunk.Shapes shapes)
    (hoffset : chunk.Offset offset) (hin : offset < chunk.code.size) :
    ∃ behind line, chunk.renderInstruction paint offset = .ok (behind, line) ∧
      chunk.Offset behind := by
  obtain ⟨shape, hshape⟩ := Option.isSome_iff_exists.1 ((h.offsets offset).2 ⟨hoffset, hin⟩)
  obtain ⟨op, args, span, hinstr, hfits⟩ := h.fits offset shape hshape
  obtain ⟨operands, hoperands⟩ : chunk.Lists paint (offset + 1) op.operands _ :=
    lists_of_fits hinstr hfits
  refine ⟨offset + 1 + args.length,
    paint.dim (fourDigits offset) ++ " | " ++ paint.purple op.name ++ operands, ?_,
    .next hoffset hin (hinstr.next)⟩
  rw [Chunk.renderInstruction, hinstr.opcode]
  simp only [bind, Except.bind, hoperands]
  rfl

theorem WellFormed.renderFrom (h : chunk.WellFormed) (fuel : Nat) (hoffset : chunk.Offset offset) :
    ∃ lines, chunk.renderFrom paint fuel offset = .ok lines := by
  obtain ⟨shapes, hshapes⟩ := h.shapes
  induction fuel generalizing offset with
  | zero => exact ⟨_, rfl⟩
  | succ fuel ih =>
      rw [Chunk.renderFrom]
      split
      · obtain ⟨behind, line, hline, hbehind⟩ := hshapes.renderInstruction hoffset ‹_›
        obtain ⟨lines, hlines⟩ := ih hbehind
        refine ⟨line ++ "\n" ++ lines, ?_⟩
        rw [hline]
        simp only [bind, Except.bind, hlines]
        rfl
      · exact ⟨_, rfl⟩

end Chunk

mutual

/-- A chunk can be listed if all that it reaches is well formed. -/
theorem listing_of_reaches (paint : Paint) : (chunk : Chunk) →
    (∀ inner, chunk.Reaches inner → inner.WellFormed) → ∃ text, chunk.listing paint = .ok text
  | ⟨name, source, code, spans, constants⟩, h => by
      obtain ⟨lines, hlines⟩ : ∃ lines,
          (Chunk.mk name source code spans constants).renderFrom paint code.size 0 = .ok lines :=
        (h _ (.refl _)).renderFrom code.size .start
      obtain ⟨more, hmore⟩ := listingAll_of_reaches paint constants fun literal body hmem inner hr =>
        h inner (.step hmem hr)
      refine ⟨"== " ++ name ++ " ==\n" ++ lines ++ more, ?_⟩
      rw [Chunk.listing, hlines]
      simp only [bind, Except.bind, hmore]
      rfl

theorem constantListing_of_reaches (paint : Paint) : (c : Constant) →
    (∀ literal body, c = .function literal body → ∀ inner, body.Reaches inner →
      inner.WellFormed) → ∃ text, c.listing paint = .ok text
  | .function literal body, h => by
      obtain ⟨text, htext⟩ := listing_of_reaches paint body (h literal body rfl)
      exact ⟨"\n" ++ text, by rw [Constant.listing, htext]; rfl⟩
  | .number x, _ => ⟨"", by rw [Constant.listing]⟩
  | .string x, _ => ⟨"", by rw [Constant.listing]⟩

theorem listingAll_of_reaches (paint : Paint) : (constants : List Constant) →
    (∀ literal body, .function literal body ∈ constants → ∀ inner, body.Reaches inner →
      inner.WellFormed) → ∃ text, listingAll paint constants = .ok text
  | [], _ => ⟨"", by rw [listingAll]⟩
  | c :: rest, h => by
      obtain ⟨first, hfirst⟩ := constantListing_of_reaches paint c fun literal body hc =>
        h literal body (hc ▸ List.mem_cons_self)
      obtain ⟨more, hmore⟩ := listingAll_of_reaches paint rest fun literal body hmem =>
        h literal body (List.mem_cons_of_mem _ hmem)
      refine ⟨first ++ more, ?_⟩
      rw [listingAll, hfirst]
      simp only [bind, Except.bind, hmore]
      rfl

end

end BoardScript
