/-
Which names compiled code looks up. The instructions that look up a name, in
the chunk of a literal and in all that are nested in it, name just the
variables that the body of the literal mentions (`looksUp_iff_mentions`).

A nested chunk is among the constants, and was put there for the instruction
that makes its closure. So along with the code that is made so far, what is
kept in view is that no function in the table looks up more than is
mentioned (`Constant.Within`).
-/
import BoardScript.Proofs.Code.WellFormed
import BoardScript.Proofs.Program.Mention

namespace BoardScript

open Compile

-- ================================================================= chunks

namespace Chunk

variable {chunk : Chunk} {name : String}

/-- Whether an instruction of a chunk looks up a name, to read or to call
what it stands for. -/
def Names (chunk : Chunk) (name : String) : Prop :=
  ∃ offset op next, chunk.Offset offset ∧ offset < chunk.code.size ∧
    chunk.readOpCode offset = .ok (offset + 1, op) ∧ (op = .getName ∨ op = .getCallee) ∧
    chunk.readName (offset + 1) = .ok (next, name)

/-- Whether a name is looked up in a chunk or in one nested in it. -/
def LooksUp (chunk : Chunk) (name : String) : Prop :=
  ∃ inner, chunk.Reaches inner ∧ inner.Names name

/-- A name that is read is a text in the table. -/
theorem constant_of_readName {offset next : Nat} {place : UInt8}
    (hbyte : chunk.readByte offset = .ok place)
    (hread : chunk.readName offset = .ok (next, name)) :
    chunk.constants[place.toNat]? = some (.string name) := by
  unfold readName readConstant at hread
  rw [readAddress_eq hbyte] at hread
  simp only [bind, Except.bind, constantAt] at hread
  cases hc : chunk.constants[place.toNat]? with
  | none => rw [hc] at hread; cases hread
  | some c =>
      rw [hc] at hread
      cases c with
      | string text => cases hread; rfl
      | _ => cases hread

end Chunk

/-- A constant that is no function, or one that looks up no more than the
names with a property. -/
def Constant.Within (N : String → Prop) : Constant → Prop
  | .function _ chunk => ∀ name, chunk.LooksUp name → N name
  | .number _ | .string _ => True

-- =================================================================== code

/-- The opcodes that look up a name, or make something that may. -/
def OpCode.asks : OpCode → Bool
  | .getName | .getCallee | .closure => Bool.true
  | _ => Bool.false

/-- Whether an instruction looks up a name, or makes a closure that does. -/
def Step.Asks (constants : List Constant) (s : Step) (name : String) : Prop :=
  ∃ place c, s.args = [place] ∧ constants[place.toNat]? = some c ∧
    ((s.op = .getName ∨ s.op = .getCallee) ∧ c = .string name ∨
      s.op = .closure ∧ ∃ literal chunk, c = .function literal chunk ∧ chunk.LooksUp name)

/-- Code that looks up just the names with a property. -/
def Asks (constants : List Constant) (code : Code) (N : String → Prop) : Prop :=
  ∃ steps, code = codeOf steps ∧ (∀ s ∈ steps, s.args.length = s.op.operandWidth) ∧
    ∀ name, N name ↔ ∃ s ∈ steps, s.Asks constants name

/-- Code that looks up nothing, whatever the constants are. -/
def Quiet (code : Code) : Prop :=
  ∃ steps, code = codeOf steps ∧ ∀ s ∈ steps, s.args.length = s.op.operandWidth ∧ s.op.asks = false

namespace Quiet

variable {a b : Code}

theorem append (ha : Quiet a) (hb : Quiet b) : Quiet (a ++ b) := by
  obtain ⟨stepsA, rfl, hstepsA⟩ := ha
  obtain ⟨stepsB, rfl, hstepsB⟩ := hb
  exact ⟨stepsA ++ stepsB, (codeOf_append _ _).symm, List.forall_mem_append.2 ⟨hstepsA, hstepsB⟩⟩

/-- One instruction, with its operands. -/
theorem single (code : OpCode) (args : List UInt8) (span : Span)
    (hwidth : args.length = code.operandWidth) (hquiet : code.asks = false) :
    Quiet (op code span ++ args.map fun byte => (byte, none)) :=
  ⟨[⟨code, args, span, []⟩], by simp [Step.code], by simpa using ⟨hwidth, hquiet⟩⟩

theorem plain (code : OpCode) (span : Span) (hwidth : 0 = code.operandWidth)
    (hquiet : code.asks = false) : Quiet (op code span) :=
  single code [] span hwidth hquiet

theorem pop (span : Span) : Quiet (op .pop span) := plain .pop span rfl rfl

theorem undefined (span : Span) : Quiet (op .undefined span) := plain .undefined span rfl rfl

theorem withOperand (code : OpCode) (byte : UInt8) (span : Span) (hwidth : 1 = code.operandWidth)
    (hquiet : code.asks = false) : Quiet (op code span ++ operand byte) :=
  single code [byte] span hwidth hquiet

theorem jump (code : OpCode) (distance : Nat) (span : Span) (hwidth : 2 = code.operandWidth)
    (hquiet : code.asks = false) : Quiet (op code span ++ distanceCode distance) :=
  single code [(distance / 256).toUInt8, (distance % 256).toUInt8] span hwidth hquiet

end Quiet

/-- An opcode that looks up nothing begins no instruction that does. -/
theorem Step.not_asks {constants : List Constant} {s : Step} {name : String}
    (h : s.op.asks = false) : ¬s.Asks constants name := by
  rintro ⟨place, c, -, -, ⟨hop | hop, -⟩ | ⟨hop, -⟩⟩ <;> rw [hop] at h <;> cases h

namespace Asks

variable {constants : List Constant} {a b : Code} {N N' : String → Prop}

theorem congr (h : Asks constants a N) (hN : ∀ name, N name ↔ N' name) : Asks constants a N' := by
  obtain ⟨steps, rfl, hwidth, hsteps⟩ := h
  exact ⟨steps, rfl, hwidth, fun name => (hN name).symm.trans (hsteps name)⟩

theorem append (ha : Asks constants a N) (hb : Asks constants b N') :
    Asks constants (a ++ b) fun name => N name ∨ N' name := by
  obtain ⟨stepsA, rfl, hwidthA, hstepsA⟩ := ha
  obtain ⟨stepsB, rfl, hwidthB, hstepsB⟩ := hb
  refine ⟨stepsA ++ stepsB, (codeOf_append _ _).symm,
    List.forall_mem_append.2 ⟨hwidthA, hwidthB⟩, fun name => ?_⟩
  show N name ∨ N' name ↔ _
  rw [hstepsA, hstepsB]
  simp only [List.mem_append, or_and_right, exists_or]

theorem of_quiet (h : Quiet a) : Asks constants a fun _ => False := by
  obtain ⟨steps, rfl, hsteps⟩ := h
  refine ⟨steps, rfl, fun s hs => (hsteps s hs).1, fun name => ⟨False.elim, ?_⟩⟩
  rintro ⟨s, hs, hasks⟩
  exact Step.not_asks (hsteps s hs).2 hasks

theorem behind (ha : Asks constants a N) (hb : Quiet b) : Asks constants (a ++ b) N :=
  (ha.append (of_quiet hb)).congr fun _ => iff_of_eq (or_false _)

theorem inFront (ha : Quiet a) (hb : Asks constants b N) : Asks constants (a ++ b) N :=
  ((of_quiet ha).append hb).congr fun _ => iff_of_eq (false_or _)

/-- One instruction with a constant as its operand. -/
theorem single {code : OpCode} {place : UInt8} (span : Span) (hwidth : 1 = code.operandWidth)
    (hN : ∀ name, N name ↔ Step.Asks constants ⟨code, [place], span, []⟩ name) :
    Asks constants (op code span ++ operand place) N := by
  refine ⟨[⟨code, [place], span, []⟩], by simp [Step.code, operand], ?_, fun name => ?_⟩
  · exact List.forall_mem_singleton.2 hwidth
  · rw [hN]
    simp

/-- An instruction that looks up a name. -/
theorem named {code : OpCode} {place : UInt8} {name : String} (span : Span)
    (hcode : code = .getName ∨ code = .getCallee)
    (hplace : constants[place.toNat]? = some (.string name)) :
    Asks constants (op code span ++ operand place) (name = ·) := by
  refine single span (by rcases hcode with rfl | rfl <;> rfl) fun text => ⟨?_, ?_⟩
  · exact fun h => ⟨place, _, rfl, hplace, .inl ⟨hcode, congrArg Constant.string h⟩⟩
  · rintro ⟨_, c, ⟨⟩, hc, ⟨-, rfl⟩ | ⟨hop, -⟩⟩
    · cases hplace.symm.trans hc
      rfl
    · rcases hcode with rfl | rfl <;> cases hop

/-- An instruction that makes a closure. -/
theorem closure {place : UInt8} {literal : FunctionLiteral} {chunk : Chunk} (span : Span)
    (hplace : constants[place.toNat]? = some (.function literal chunk)) :
    Asks constants (op .closure span ++ operand place) chunk.LooksUp := by
  refine single span rfl fun text => ⟨?_, ?_⟩
  · exact fun h => ⟨place, _, rfl, hplace, .inr ⟨rfl, literal, chunk, rfl, h⟩⟩
  · rintro ⟨_, c, ⟨⟩, hc, ⟨hop | hop, -⟩ | ⟨-, literal', chunk', rfl, h⟩⟩
    · cases hop
    · cases hop
    · cases hplace.symm.trans hc
      exact h

/-- Code of a node that is no name, with what is mentioned below it. -/
theorem of_children {node : Node} (h : Asks constants a N) (hname : node.name? = none)
    (hN : ∀ name, N name ↔ ∃ child ∈ node.children, child.Mentions name) :
    Asks constants a node.Mentions := by
  refine h.congr fun name => ?_
  rw [hN, Node.mentions_iff, hname]
  exact (or_iff_right (fun h => nomatch h)).symm

end Asks

section

variable {constants : List Constant} {steps : List Step} {s : Step} {name text : String}
  {source : Source}

/-- What an instruction of a chunk names is what it looks up, its operand
being a place in the table. -/
theorem asks_of_names (hwidth : ∀ s ∈ steps, s.args.length = s.op.operandWidth)
    (h : (Compile.chunk name source (codeOf steps) constants).Names text) :
    ∃ s ∈ steps, s.Asks constants text := by
  obtain ⟨offset, code, next, hoffset, hin, hop, hcode, hname⟩ := h
  obtain ⟨before, s, rest, hsteps, rfl⟩ := (offset_lt_iff hwidth).1 ⟨hoffset, hin⟩
  have hs : s ∈ steps := hsteps ▸ List.mem_append_right _ List.mem_cons_self
  have hinstr : (Compile.chunk name source (codeOf steps) constants).Instruction
      (codeOf before).length s.op s.args s.span := instruction_behind (hwidth s hs) hsteps
  obtain rfl : s.op = code := by
    cases hinstr.opcode.symm.trans hop
    rfl
  obtain ⟨place, hargs⟩ : ∃ place, s.args = [place] := by
    refine List.length_eq_one_iff.1 ((hwidth s hs).trans ?_)
    rcases hcode with hcode | hcode <;> rw [hcode] <;> rfl
  have hbyte := hinstr.operands 0 place (by rw [hargs]; rfl)
  exact ⟨s, hs, place, _, hargs, Chunk.constant_of_readName hbyte hname, .inl ⟨hcode, rfl⟩⟩

/-- What an instruction looks up, its chunk names. -/
theorem names_of_asks (hwidth : ∀ s ∈ steps, s.args.length = s.op.operandWidth) {place : UInt8}
    (hs : s ∈ steps) (hargs : s.args = [place]) (hop : s.op = .getName ∨ s.op = .getCallee)
    (hc : constants[place.toNat]? = some (.string text)) :
    (Compile.chunk name source (codeOf steps) constants).Names text := by
  obtain ⟨before, rest, hsteps⟩ := List.append_of_mem hs
  have hinstr : (Compile.chunk name source (codeOf steps) constants).Instruction
      (codeOf before).length s.op s.args s.span := instruction_behind (hwidth s hs) hsteps
  have hbyte := hinstr.operands 0 place (by rw [hargs]; rfl)
  refine ⟨_, _, _, ?_, ?_, hinstr.opcode, hop, Chunk.readName_eq hbyte hc⟩
  · exact ((offset_lt_iff hwidth).2 ⟨before, s, rest, hsteps, rfl⟩).1
  · exact ((offset_lt_iff hwidth).2 ⟨before, s, rest, hsteps, rfl⟩).2

/-- A chunk looks up what its code does, if the functions among its constants
look up no more. -/
theorem looksUp_chunk {code : Code} {N : String → Prop} (h : Asks constants code N)
    (hfine : ∀ c ∈ constants, c.Within N) :
    (Compile.chunk name source code constants).LooksUp text ↔ N text := by
  obtain ⟨steps, rfl, hwidth, hN⟩ := h
  constructor
  · rintro ⟨inner, hreach, hnames⟩
    cases hreach with
    | refl => exact (hN text).2 (asks_of_names hwidth hnames)
    | step hmem hreach => exact hfine _ hmem text ⟨inner, hreach, hnames⟩
  · intro h
    obtain ⟨s, hs, place, c, hargs, hc, hasks⟩ := (hN text).1 h
    rcases hasks with ⟨hop, rfl⟩ | ⟨-, literal, body, rfl, hbody⟩
    · exact ⟨_, .refl _, names_of_asks hwidth hs hargs hop hc⟩
    · obtain ⟨inner, hreach, hnames⟩ := hbody
      exact ⟨inner, .step (List.mem_of_getElem? hc) hreach, hnames⟩

end

-- ================================================================== nodes

section

variable {Fine : Constant → Prop} {N N' : String → Prop}

/-- An instruction with a text that it does not look up. -/
theorem quiet_withName (hfine : ∀ text, Fine (.string text)) (code : OpCode) (name : String)
    (span : Span) (hwidth : 1 = code.operandWidth) (hquiet : code.asks = false) :
    Yields Fine (withName code name span) fun _ made => Quiet made :=
  (yields_withName code name span (hfine name)).mono fun _ made ⟨place, _, hmade⟩ => by
    rw [hmade]
    exact .withOperand code place span hwidth hquiet

theorem quiet_jump (code : OpCode) (distance : Nat) (span : Span) (hwidth : 2 = code.operandWidth)
    (hquiet : code.asks = false) :
    Yields Fine (jump code distance span) fun _ made => Quiet made :=
  (yields_jump code distance span).mono fun _ made ⟨_, hmade⟩ => by
    rw [hmade]
    exact .jump code distance span hwidth hquiet

theorem asks_choice {yes no : Assembly Code} (span : Span)
    (hyes : Yields Fine yes fun final code => Asks final code N)
    (hno : Yields Fine no fun final code => Asks final code N') :
    Yields Fine (choice yes no span) fun final code =>
      Asks final code fun name => N name ∨ N' name := by
  refine hyes.bind fun yes => (quiet_jump .jumpIfFalse _ _ rfl rfl).bind fun skipYes =>
    hno.bind fun no => (quiet_jump .jump _ _ rfl rfl).bind fun skipNo => .pure ?_
  intro final hskipNo hno hskipYes hyes
  have hfirst : Asks final (skipYes ++ op .pop span ++ yes) N :=
    .inFront (hskipYes.append (.pop span)) hyes
  exact ((hfirst.behind hskipNo).behind (.pop span)).append hno

theorem asks_loopTail (condition turn : Nat) (body : Code) (span : Span) :
    Yields Fine (loopTail condition turn body span) fun final code =>
      ∀ N, Asks final body N → Asks final code N := by
  refine (quiet_jump .loop _ _ rfl rfl).bind fun back => (quiet_jump .jumpIfFalse _ _ rfl rfl).bind
    fun exit => .pure ?_
  intro final hexit hback N hbody
  have hturn : Asks final (exit ++ op .pop span ++ body) N :=
    .inFront (hexit.append (.pop span)) hbody
  exact ((hturn.behind hback).behind (.pop span)).behind (.undefined span)

/-- A name that is called is looked up, whatever else it is; any other callee
is code of its own. -/
theorem asks_resolved (hfine : ∀ text, Fine (.string text)) {callee : Node} {code : Assembly Code}
    (h : Yields Fine code fun final code => Asks final code callee.Mentions) :
    Yields Fine (resolved callee code) fun final code => Asks final code callee.Mentions := by
  unfold resolved
  split
  · rename_i name hname
    refine (yields_withName .getCallee name _ (hfine name)).mono fun final made hmade => ?_
    obtain ⟨place, hplace, rfl⟩ := hmade
    obtain ⟨span, rfl⟩ := Node.name?_eq_some.1 hname
    refine (Asks.named _ (.inr rfl) hplace).congr fun text => ?_
    rw [Node.mentions_iff]
    simp [Node.name?, Node.children]
  · exact h

theorem asks_call (hfine : ∀ text, Fine (.string text)) {callee : Node}
    {calleeCode args : Assembly Code} {argCount : Nat} (naming : Option String) (span : Span)
    (hcallee : Yields Fine calleeCode fun final code => Asks final code callee.Mentions)
    (hargs : Yields Fine args fun final code => Asks final code N) :
    Yields Fine (call callee calleeCode args argCount none naming span) fun final code =>
      Asks final code fun name => callee.Mentions name ∨ N name := by
  rw [call_eq]
  refine (asks_resolved hfine hcallee).bind fun callee => (yields_count _ _ _).bind fun argc =>
    hargs.bind fun args => (yields_string _ _ (hfine _)).bind fun text => ?_
  cases naming with
  | some name =>
      refine (yields_string _ _ (hfine name)).bind fun name => .pure ?_
      intro final _ _ hargs _ hcallee
      rw [List.append_assoc, List.append_assoc, List.append_assoc]
      exact (hcallee.append hargs).behind (.single .callNamed [argc, text, name] span rfl rfl)
  | none =>
      refine .pure ?_
      intro final _ hargs _ hcallee
      rw [List.append_assoc, List.append_assoc]
      exact (hcallee.append hargs).behind (.single .call [argc, text] span rfl rfl)

theorem asks_callWith (hfine : ∀ text, Fine (.string text)) {callee : Node}
    {calleeCode args attributes : Assembly Code} {argCount : Nat} (naming : Option String)
    (span : Span)
    (hcallee : Yields Fine calleeCode fun final code => Asks final code callee.Mentions)
    (hargs : Yields Fine args fun final code => Asks final code N)
    (hattributes : Yields Fine attributes fun final code => Asks final code N') :
    Yields Fine (call callee calleeCode args argCount (some attributes) naming span)
      fun final code => Asks final code fun name => (callee.Mentions name ∨ N name) ∨ N' name := by
  rw [call_eq]
  refine (asks_resolved hfine hcallee).bind fun callee => (yields_count _ _ _).bind fun argc =>
    hargs.bind fun args => (yields_string _ _ (hfine _)).bind fun text =>
    hattributes.bind fun attributes => .pure ?_
  intro final hattributes _ hargs _ hcallee
  rw [List.append_assoc, List.append_assoc]
  exact ((hcallee.append hargs).append hattributes).behind
    (.single .callWithAttributes [argc, text] span rfl rfl)

theorem asks_object {properties : Assembly Code} (size : Nat) (span : Span)
    (h : Yields Fine properties fun final code => Asks final code N) :
    Yields Fine (object properties size span) fun final code => Asks final code N := by
  refine (yields_count _ _ _).bind fun count => h.bind fun properties => .pure ?_
  intro final hproperties _
  rw [List.append_assoc]
  exact hproperties.behind (.withOperand .object count span rfl rfl)

end

/-- The code of a node looks up what the node mentions, and no function that
it puts among the constants looks up more than the names with a property. -/
def Node.Asked (place : Place) (N : String → Prop) (node : Node) : Prop :=
  ∀ naming, Yields (Constant.Within N) (node.compile place naming) fun final code =>
    Asks final code node.Mentions

section

variable {place : Place} {N : String → Prop}

theorem mentions_cons {node : Node} {nodes : List Node} {name : String} :
    (node.Mentions name ∨ ∃ other ∈ nodes, other.Mentions name) ↔
      ∃ other ∈ node :: nodes, other.Mentions name :=
  (List.exists_mem_cons_iff (Node.Mentions · name) node nodes).symm

theorem within_string (text : String) : (Constant.string text).Within N := trivial

theorem asks_statements : (nodes : List Node) → (∀ node ∈ nodes, node.Asked place N) →
    Yields (Constant.Within N) (compileStatements place nodes) fun final code =>
      Asks final code fun name => ∃ node ∈ nodes, node.Mentions name
  | [], _ => .pure fun _ => (Asks.of_quiet ⟨[], rfl, List.forall_mem_nil _⟩).congr (by simp)
  | [node], h => (h node (List.mem_singleton_self node) none).mono fun _ _ hnode =>
      hnode.congr (by simp)
  | node :: next :: rest, h => by
      have hrest := asks_statements (next :: rest) fun n hn => h n (List.mem_cons_of_mem _ hn)
      rw [compileStatements]
      refine (h node List.mem_cons_self none).bind fun code => hrest.bind fun more => .pure ?_
      intro final hmore hcode
      exact ((hcode.behind (.pop next.span)).append hmore).congr fun _ => mentions_cons

theorem asks_all : (nodes : List Node) → (∀ node ∈ nodes, node.Asked place N) →
    Yields (Constant.Within N) (compileAll place nodes) fun final code =>
      Asks final code fun name => ∃ node ∈ nodes, node.Mentions name
  | [], _ => .pure fun _ => (Asks.of_quiet ⟨[], rfl, List.forall_mem_nil _⟩).congr (by simp)
  | node :: rest, h => by
      have hrest := asks_all rest fun n hn => h n (List.mem_cons_of_mem _ hn)
      rw [compileAll]
      refine (h node List.mem_cons_self none).bind fun code => hrest.bind fun more => .pure ?_
      intro final hmore hcode
      exact (hcode.append hmore).congr fun _ => mentions_cons

theorem asks_properties : (properties : List Property) →
    (∀ node ∈ properties.map Property.value, node.Asked place N) →
    Yields (Constant.Within N) (compileProperties place properties) fun final code =>
      Asks final code fun name => ∃ node ∈ properties.map Property.value, node.Mentions name
  | [], _ => .pure fun _ => (Asks.of_quiet ⟨[], rfl, List.forall_mem_nil _⟩).congr (by simp)
  | .mk key value :: rest, h => by
      have hrest := asks_properties rest fun n hn => h n (List.mem_cons_of_mem _ hn)
      rw [compileProperties]
      refine (quiet_withName within_string .constant key.text key.span rfl rfl).bind fun key =>
        (h value List.mem_cons_self none).bind fun value => hrest.bind fun more => .pure ?_
      intro final hmore hvalue hkey
      exact ((Asks.inFront hkey hvalue).append hmore).congr fun _ => mentions_cons

-- ------------------------------------------------------------- statements

variable {span : Span} {condition yes no body value owner base index left right target : Node}
  {name : Name}

theorem asked_block {statements : List Node} (h : ∀ node ∈ statements, node.Asked place N) :
    (Node.block statements span).Asked place N := by
  intro naming
  rw [Node.compile]
  split
  · rename_i hempty
    obtain rfl := List.isEmpty_iff.1 hempty
    exact .pure fun _ => (Asks.of_quiet (.undefined span)).of_children rfl (by simp [Node.children])
  · exact (asks_statements statements h).mono fun _ _ hcode =>
      hcode.of_children rfl fun _ => Iff.rfl

theorem asked_assign (hvalue : value.Asked place N) :
    (Node.assign name value span).Asked place N := by
  intro naming
  rw [Node.compile]
  refine (hvalue _).bind fun value =>
    (quiet_withName within_string .setLocal _ _ rfl rfl).bind fun set => .pure ?_
  intro final hset hvalue
  exact (hvalue.behind hset).of_children rfl (by simp [Node.children])

theorem asked_assignProperty (howner : owner.Asked place N) (hvalue : value.Asked place N) :
    (Node.assignProperty owner name value span).Asked place N := by
  intro naming
  rw [Node.compile]
  refine (howner _).bind fun owner => (hvalue _).bind fun value =>
    (quiet_withName within_string .setProperty _ _ rfl rfl).bind fun set => .pure ?_
  intro final hset hvalue howner
  exact ((howner.append hvalue).behind hset).of_children rfl (by simp [Node.children])

theorem asked_assignIndex (hbase : base.Asked place N) (hindex : index.Asked place N)
    (hvalue : value.Asked place N) : (Node.assignIndex base index value span).Asked place N := by
  intro naming
  rw [Node.compile]
  refine (hbase _).bind fun base => (hindex _).bind fun index => (hvalue _).bind fun code =>
    .pure ?_
  intro final hvalue hindex hbase
  exact (((hbase.append hindex).append hvalue).behind (.plain .setIndex _ rfl rfl)).of_children rfl
    (by simp [Node.children, or_assoc])

theorem asked_ifThen (hcondition : condition.Asked place N) (hyes : yes.Asked place N) :
    (Node.ifThen condition yes span).Asked place N := by
  intro naming
  rw [Node.compile]
  refine (hcondition _).bind fun condition => (asks_choice span (hyes _)
    (.pure fun _ => .of_quiet (.undefined span))).bind fun choice => .pure ?_
  intro final hchoice hcondition
  exact (hcondition.append hchoice).of_children rfl (by simp [Node.children])

/-- A condition with two branches, in a statement or in an expression. -/
theorem asks_branches (hcondition : condition.Asked place N) (hyes : yes.Asked place N)
    (hno : no.Asked place N) :
    Yields (Constant.Within N) (do
      let condition ← condition.compile place none
      return condition ++ (← choice (yes.compile place none) (no.compile place none) span))
      fun final code => Asks final code fun name => ∃ child ∈ [condition, yes, no],
        child.Mentions name := by
  refine (hcondition none).bind fun condition => (asks_choice span (hyes none) (hno none)).bind
    fun choice => .pure ?_
  intro final hchoice hcondition
  exact (hcondition.append hchoice).congr (by simp)

theorem asked_ifElse (hcondition : condition.Asked place N) (hyes : yes.Asked place N)
    (hno : no.Asked place N) : (Node.ifElse condition yes no span).Asked place N := by
  intro naming
  rw [Node.compile]
  exact (asks_branches hcondition hyes hno).mono fun _ _ hcode =>
    hcode.of_children rfl fun _ => Iff.rfl

theorem asked_conditional (hcondition : condition.Asked place N) (hyes : yes.Asked place N)
    (hno : no.Asked place N) : (Node.conditional condition yes no span).Asked place N := by
  intro naming
  rw [Node.compile]
  exact (asks_branches hcondition hyes hno).mono fun _ _ hcode =>
    hcode.of_children rfl fun _ => Iff.rfl

theorem asked_whileLoop (hcondition : condition.Asked place N) (hbody : body.Asked place N) :
    (Node.whileLoop condition body span).Asked place N := by
  intro naming
  rw [Node.compile]
  refine (hcondition _).bind fun condition => (hbody _).bind fun body =>
    (asks_loopTail _ _ _ span).bind fun tail => .pure ?_
  intro final htail hbody hcondition
  exact (hcondition.append (htail _ (hbody.behind (.pop span)))).of_children rfl
    (by simp [Node.children])

theorem asked_doLoop (hbody : body.Asked place N) (hcondition : condition.Asked place N) :
    (Node.doLoop body condition span).Asked place N := by
  intro naming
  rw [Node.compile]
  refine (hbody _).bind fun body => (hcondition _).bind fun condition =>
    (asks_loopTail _ _ [] span).bind fun tail => .pure ?_
  intro final htail hcondition hbody
  have hstart := (hbody.behind (.pop span)).append hcondition
  have hnothing : Asks final [] fun _ => False := .of_quiet ⟨[], rfl, List.forall_mem_nil _⟩
  exact (hstart.append (htail _ hnothing)).of_children rfl (by simp [Node.children])

theorem asked_forLoop {init step : Node} (hinit : init.Asked place N)
    (hcondition : condition.Asked place N) (hstep : step.Asked place N)
    (hbody : body.Asked place N) : (Node.forLoop init condition step body span).Asked place N := by
  intro naming
  rw [Node.compile]
  refine (hinit _).bind fun init => (hcondition _).bind fun condition => (hbody _).bind fun body =>
    (hstep _).bind fun step => (asks_loopTail _ _ _ span).bind fun tail => .pure ?_
  intro final htail hstep hbody hcondition hinit
  -- the step stands behind the body in the code
  have hturn := ((hbody.behind (.pop span)).append hstep).behind (.pop span)
  exact (((hinit.behind (.pop span)).append hcondition).append (htail _ hturn)).of_children rfl
    (by simp [Node.children, or_assoc, or_comm, or_left_comm])

theorem asked_useBoard : (Node.useBoard name span).Asked place N := by
  intro naming
  rw [Node.compile]
  exact (quiet_withName within_string .useBoard _ _ rfl rfl).mono fun _ _ hcode =>
    (Asks.of_quiet hcode).of_children rfl (by simp [Node.children])

theorem asked_delete (htarget : target.Asked place N) :
    (Node.delete target span).Asked place N := by
  intro naming
  rw [Node.compile]
  refine (htarget _).bind fun target => .pure ?_
  intro final htarget
  exact (htarget.behind (.plain .delete span rfl rfl)).of_children rfl (by simp [Node.children])

theorem asked_returnNothing : (Node.returnNothing span).Asked place N := by
  intro naming
  rw [Node.compile]
  have hquiet : Quiet (op .undefined span ++ op .giveBack span) :=
    (Quiet.undefined span).append (.plain .giveBack span rfl rfl)
  exact .pure fun _ => (Asks.of_quiet hquiet).of_children rfl (by simp [Node.children])

/-- Inside of a function, what is returned is compiled. -/
theorem asked_returnValue (hplace : place.inFunction = true) (hvalue : value.Asked place N) :
    (Node.returnValue value span).Asked place N := by
  intro naming
  rw [compile_returnValue, returned, if_pos hplace]
  refine (hvalue none).bind fun value => .pure ?_
  intro final hvalue
  exact (hvalue.behind (.plain .giveBack span rfl rfl)).of_children rfl (by simp [Node.children])

theorem asked_expression (hvalue : value.Asked place N) :
    (Node.expression value span).Asked place N := by
  intro naming
  rw [Node.compile]
  exact (hvalue none).mono fun _ _ hcode => hcode.of_children rfl (by simp [Node.children])

-- ------------------------------------------------------------ expressions

theorem asked_call {args : List Node} {callee : Node} (hcallee : callee.Asked place N)
    (hargs : ∀ arg ∈ args, arg.Asked place N) : (Node.call callee args span).Asked place N := by
  intro naming
  rw [Node.compile]
  exact (asks_call within_string naming span (hcallee none) (asks_all args hargs)).mono
    fun _ _ hcode => hcode.of_children rfl fun _ => mentions_cons

theorem asked_callWith {args : List Node} {attributes : List Property} {callee : Node}
    (hcallee : callee.Asked place N) (hargs : ∀ arg ∈ args, arg.Asked place N)
    (hattributes : ∀ node ∈ attributes.map Property.value, node.Asked place N) :
    (Node.callWith callee args attributes span).Asked place N := by
  intro naming
  rw [Node.compile]
  refine (asks_callWith within_string naming span (hcallee none) (asks_all args hargs)
    (asks_object _ span (asks_properties attributes hattributes))).mono fun _ _ hcode =>
    hcode.of_children rfl fun name => ?_
  simp only [Node.children, List.cons_append, List.mem_cons, List.mem_append, or_and_right,
    exists_or, exists_eq_left, or_assoc]

theorem asked_array {items : List Node} (h : ∀ item ∈ items, item.Asked place N) :
    (Node.array items span).Asked place N := by
  intro naming
  rw [Node.compile]
  refine (yields_count _ _ _).bind fun count => (asks_all items h).bind fun code => .pure ?_
  intro final hcode _
  rw [List.append_assoc]
  exact (hcode.behind (.withOperand .array count span rfl rfl)).of_children rfl fun _ => Iff.rfl

theorem asked_object {properties : List Property}
    (h : ∀ node ∈ properties.map Property.value, node.Asked place N) :
    (Node.object properties span).Asked place N := by
  intro naming
  rw [Node.compile]
  exact (asks_object _ span (asks_properties properties h)).mono fun _ _ hcode =>
    hcode.of_children rfl fun _ => Iff.rfl

theorem asked_index (hbase : base.Asked place N) (hindex : index.Asked place N) :
    (Node.index base index span).Asked place N := by
  intro naming
  rw [Node.compile]
  refine (hbase _).bind fun base => (hindex _).bind fun index => .pure ?_
  intro final hindex hbase
  exact ((hbase.append hindex).behind (.plain .getIndex span rfl rfl)).of_children rfl
    (by simp [Node.children])

theorem asked_binary {operator : BinaryOperator} (hleft : left.Asked place N)
    (hright : right.Asked place N) : (Node.binary operator left right span).Asked place N := by
  intro naming
  by_cases hand : operator = .and
  · subst hand
    rw [Node.compile]
    refine (hleft _).bind fun left => (hright _).bind fun right =>
      (quiet_jump .jumpIfFalse _ _ rfl rfl).bind fun skip => .pure ?_
    intro final hskip hright hleft
    exact (((hleft.behind hskip).behind (.pop span)).append hright).of_children rfl
      (by simp [Node.children])
  by_cases hor : operator = .or
  · subst hor
    rw [Node.compile]
    refine (hleft _).bind fun left => (quiet_jump .jumpIfFalse _ _ rfl rfl).bind fun skip =>
      (hright _).bind fun right => (quiet_jump .jump _ _ rfl rfl).bind fun pass => .pure ?_
    intro final hpass hright hskip hleft
    exact ((((hleft.behind hskip).behind hpass).behind (.pop span)).append hright).of_children rfl
      (by simp [Node.children])
  rw [compile_binary hand hor]
  refine (hleft none).bind fun left => (hright none).bind fun right => .pure ?_
  intro final hright hleft
  rw [List.append_assoc]
  exact ((hleft.append hright).behind (.withOperand .binary _ span rfl rfl)).of_children rfl
    (by simp [Node.children])

theorem asked_unary {operator : UnaryOperator} (htarget : target.Asked place N) :
    (Node.unary operator target span).Asked place N := by
  intro naming
  cases operator with
  | negate =>
      refine (htarget none).bind fun target => .pure ?_
      intro final htarget
      exact (htarget.behind (.plain .negate span rfl rfl)).of_children rfl (by simp [Node.children])
  | not =>
      refine (htarget none).bind fun target => .pure ?_
      intro final htarget
      exact (htarget.behind (.plain .not span rfl rfl)).of_children rfl (by simp [Node.children])

theorem asked_identifier {text : String} : (Node.identifier text span).Asked place N := by
  intro naming
  rw [Node.compile]
  refine (yields_withName .getName text span trivial).mono fun final made hmade => ?_
  obtain ⟨address, haddress, rfl⟩ := hmade
  refine (Asks.named span (.inl rfl) haddress).congr fun name => ?_
  rw [Node.mentions_iff]
  simp [Node.name?, Node.children]

theorem asked_numeral {text : String} {kind : NumeralKind} :
    (Node.numeral text kind span).Asked place N := by
  intro naming
  rw [Node.compile]
  refine (yields_constant (.number (numeralValue text)) span trivial).bind fun address => .pure ?_
  intro final _
  exact (Asks.of_quiet (.withOperand .constant address span rfl rfl)).of_children rfl
    (by simp [Node.children])

theorem asked_string {text : String} : (Node.string text span).Asked place N := by
  intro naming
  rw [Node.compile]
  exact (quiet_withName within_string .constant text span rfl rfl).mono fun _ _ hcode =>
    (Asks.of_quiet hcode).of_children rfl (by simp [Node.children])

theorem asked_boolean {b : Bool} : (Node.boolean b span).Asked place N := by
  intro naming
  rw [Node.compile]
  refine .pure fun _ => Asks.of_children (.of_quiet ?_) rfl (by simp [Node.children])
  cases b with
  | false => exact .plain .false span rfl rfl
  | true => exact .plain .true span rfl rfl

theorem asked_coordinate {axis : Axis} (htarget : target.Asked place N) :
    (Node.coordinate axis target span).Asked place N := by
  intro naming
  rw [Node.compile]
  refine (htarget _).bind fun target => .pure ?_
  intro final htarget
  rw [List.append_assoc]
  exact (htarget.behind (.withOperand .coordinate axis.byte span rfl rfl)).of_children rfl
    (by simp [Node.children])

theorem asked_property (howner : owner.Asked place N) :
    (Node.property owner name span).Asked place N := by
  intro naming
  rw [Node.compile]
  refine (howner _).bind fun owner =>
    (quiet_withName within_string .getProperty _ _ rfl rfl).bind fun get => .pure ?_
  intro final hget howner
  exact (howner.behind hget).of_children rfl (by simp [Node.children])

end

-- ============================================================== literals

/-- The chunk of a literal looks up what the body mentions. -/
theorem looksUp_of_asked {source : Source} {literal : FunctionLiteral} {chunk : Chunk}
    {name : String} (h : literal.body.Asked ⟨source, true⟩ literal.body.Mentions)
    (hcompile : literal.compile source = .ok chunk) :
    chunk.LooksUp name ↔ literal.body.Mentions name := by
  obtain ⟨-, code, constants, title, hcode, rfl⟩ := exists_of_compile hcompile
  have hempty : Table (Constant.Within literal.body.Mentions) [] :=
    ⟨Nat.zero_le _, fun _ hc => nomatch hc⟩
  obtain ⟨htable, -, hasks⟩ := h none [] code constants hempty hcode
  refine looksUp_chunk (Asks.behind ?_ (.plain .giveBack _ rfl rfl)) htable.fine
  have hbody := hasks constants (List.prefix_refl _)
  split
  · exact hbody
  · exact (hbody.behind (.pop _)).behind (.undefined _)

theorem asked_literal {place : Place} {literal : FunctionLiteral} {N : String → Prop} {node : Node}
    {span : Span} (h : literal.body.Asked ⟨place.source, true⟩ literal.body.Mentions)
    (hnode : node.name? = none) (hchildren : node.children = [literal.body])
    (hN : ∀ name, node.Mentions name → N name) :
    Yields (Constant.Within N)
      (closure place literal (literal.body.compile ⟨place.source, true⟩ none) span)
      fun final code => Asks final code node.Mentions := by
  refine .bind_lift fun chunk hchunk => ?_
  have hlooks (name : String) : chunk.LooksUp name ↔ literal.body.Mentions name :=
    looksUp_of_asked h hchunk
  have hfine : (Constant.function literal chunk).Within N := fun name hname =>
    hN name (.of_child (by simp [hchildren]) ((hlooks name).1 hname))
  refine (yields_function literal chunk span hfine).bind fun address => .pure ?_
  intro final haddress
  refine (Asks.closure span haddress).of_children hnode fun name => ?_
  simp [hchildren, hlooks]

/-- The code of a node in a function looks up what the node mentions. -/
theorem Node.asked (place : Place) (hplace : place.inFunction = true) (node : Node) :
    ∀ N : String → Prop, (∀ name, node.Mentions name → N name) → node.Asked place N := by
  intro N hN
  have part (child : Node) (hchild : child ∈ node.children) : child.Asked place N :=
    Node.asked place hplace child N fun name h => hN name (h.of_child hchild)
  have inner (child : Node) (hchild : child ∈ node.children) :
      child.Asked ⟨place.source, true⟩ child.Mentions :=
    Node.asked ⟨place.source, true⟩ rfl child _ fun _ h => h
  cases node with
  | block statements span => exact asked_block part
  | assign name value span => exact asked_assign (part _ (by simp [Node.children]))
  | assignProperty owner name value span =>
      exact asked_assignProperty (part _ (by simp [Node.children]))
        (part _ (by simp [Node.children]))
  | assignIndex base index value span =>
      exact asked_assignIndex (part _ (by simp [Node.children])) (part _ (by simp [Node.children]))
        (part _ (by simp [Node.children]))
  | ifThen condition yes span =>
      exact asked_ifThen (part _ (by simp [Node.children])) (part _ (by simp [Node.children]))
  | ifElse condition yes no span =>
      exact asked_ifElse (part _ (by simp [Node.children])) (part _ (by simp [Node.children]))
        (part _ (by simp [Node.children]))
  | conditional condition yes no span =>
      exact asked_conditional (part _ (by simp [Node.children])) (part _ (by simp [Node.children]))
        (part _ (by simp [Node.children]))
  | whileLoop condition body span =>
      exact asked_whileLoop (part _ (by simp [Node.children])) (part _ (by simp [Node.children]))
  | doLoop body condition span =>
      exact asked_doLoop (part _ (by simp [Node.children])) (part _ (by simp [Node.children]))
  | forLoop init condition step body span =>
      exact asked_forLoop (part _ (by simp [Node.children])) (part _ (by simp [Node.children]))
        (part _ (by simp [Node.children])) (part _ (by simp [Node.children]))
  | useBoard name span => exact asked_useBoard
  | delete target span => exact asked_delete (part _ (by simp [Node.children]))
  | returnNothing span => exact asked_returnNothing
  | returnValue value span => exact asked_returnValue hplace (part _ (by simp [Node.children]))
  | expression value span => exact asked_expression (part _ (by simp [Node.children]))
  | function params body literal span =>
      intro naming
      rw [Node.compile]
      exact asked_literal (inner body (by simp [Node.children])) rfl rfl hN
  | map params body literal span =>
      intro naming
      rw [Node.compile]
      exact asked_literal (inner body (by simp [Node.children])) rfl rfl hN
  | call callee args span =>
      exact asked_call (part _ (by simp [Node.children]))
        fun arg harg => part arg (by simp [Node.children, harg])
  | callWith callee args attributes span =>
      exact asked_callWith (part _ (by simp [Node.children]))
        (fun arg harg => part arg (by simp [Node.children, harg]))
        fun value hvalue => part value (List.mem_append_right _ hvalue)
  | array items span => exact asked_array part
  | object properties span => exact asked_object part
  | index base index span =>
      exact asked_index (part _ (by simp [Node.children])) (part _ (by simp [Node.children]))
  | binary operator left right span =>
      exact asked_binary (part _ (by simp [Node.children])) (part _ (by simp [Node.children]))
  | unary operator target span => exact asked_unary (part _ (by simp [Node.children]))
  | identifier name span => exact asked_identifier
  | numeral text kind span => exact asked_numeral
  | string value span => exact asked_string
  | boolean value span => exact asked_boolean
  | coordinate axis target span => exact asked_coordinate (part _ (by simp [Node.children]))
  | property owner name span => exact asked_property (part _ (by simp [Node.children]))
termination_by sizeOf node
decreasing_by all_goals exact Node.child_lt hchild

theorem looksUp_iff_mentions {source : Source} {literal : FunctionLiteral} {chunk : Chunk}
    (h : literal.compile source = .ok chunk) (name : String) :
    chunk.LooksUp name ↔ literal.body.Mentions name :=
  looksUp_of_asked (Node.asked ⟨source, true⟩ rfl literal.body _ fun _ h => h) h

/-- The compiled code of a literal looks up just the variables that the body
mentions. All of them are looked up too when a closure is made, and what else
is looked up then is a text that the body gives to `$`. Neither changes if
variables that are assigned to, properties, keys, parameters and boards go by
other names. -/
theorem looksUp_of_compile {source : Source} {literal : FunctionLiteral} {chunk : Chunk}
    (h : literal.compile source = .ok chunk) :
    (∀ name, chunk.LooksUp name ↔ literal.body.Mentions name) ∧
    (∀ name, chunk.LooksUp name → name ∈ literal.body.namesLookedUp) ∧
    (∀ name ∈ literal.body.namesLookedUp, ¬chunk.LooksUp name → literal.body.Selects name) ∧
    ∀ f, (literal.relabel f).body.namesLookedUp = literal.body.namesLookedUp ∧
      ∀ other, (literal.relabel f).compile source = .ok other →
        ∀ name, other.LooksUp name ↔ chunk.LooksUp name := by
  have hlooks (name : String) : chunk.LooksUp name ↔ literal.body.Mentions name :=
    looksUp_iff_mentions h name
  refine ⟨hlooks, fun name hname => ?_, fun name hname hnot => ?_,
    fun f => ⟨namesLookedUp_relabel f literal.body, fun other hother name => ?_⟩⟩
  · exact Node.mem_namesLookedUp.2 (.inl ((hlooks name).1 hname))
  · rcases Node.mem_namesLookedUp.1 hname with hmentions | hselects
    · exact absurd ((hlooks name).2 hmentions) hnot
    · exact hselects
  · rw [hlooks, looksUp_iff_mentions hother]
    exact mentions_relabel f

/-- The text of a function that asks the board for something. -/
def Source.selecting : Source := .ofText "function () \x7b $('A'); \x7d"

/-- The function. -/
def FunctionLiteral.selecting : FunctionLiteral where
  isMap := false
  params := []
  body := .block
    [.expression (.call (.identifier "$" ⟨14, 1⟩) [.string "A" ⟨16, 3⟩] ⟨14, 6⟩) ⟨14, 7⟩] ⟨12, 11⟩
  span := ⟨0, 23⟩

/-- It looks up `$` itself, and the text only when a closure is made. -/
theorem looksUp_selecting :
    ∃ chunk, FunctionLiteral.selecting.compile .selecting = .ok chunk ∧
      chunk.LooksUp "$" ∧ ¬chunk.LooksUp "A" ∧
      "A" ∈ FunctionLiteral.selecting.body.namesLookedUp := by
  obtain ⟨chunk, hchunk⟩ : ∃ chunk, FunctionLiteral.selecting.compile .selecting = .ok chunk :=
    ⟨_, rfl⟩
  have hlooks := (looksUp_of_compile hchunk).1
  have hnode (node : Node) : node ∈ FunctionLiteral.selecting.body.preorder ↔
      node = FunctionLiteral.selecting.body ∨
      node = .expression (.call (.identifier "$" ⟨14, 1⟩) [.string "A" ⟨16, 3⟩] ⟨14, 6⟩) ⟨14, 7⟩ ∨
      node = .call (.identifier "$" ⟨14, 1⟩) [.string "A" ⟨16, 3⟩] ⟨14, 6⟩ ∨
      node = .identifier "$" ⟨14, 1⟩ ∨ node = .string "A" ⟨16, 3⟩ := by
    simp [preorder_eq, FunctionLiteral.selecting, Node.children]
  refine ⟨chunk, hchunk, (hlooks "$").2 ⟨⟨14, 1⟩, (hnode _).2 (by simp)⟩, fun h => ?_,
    Node.mem_namesLookedUp.2 (.inr ⟨_, _, _, _, .inl ((hnode _).2 (.inr (.inr (.inl rfl))))⟩)⟩
  obtain ⟨span, hmem⟩ := (hlooks "A").1 h
  simpa [FunctionLiteral.selecting] using (hnode _).1 hmem

end BoardScript
