/-
Stack shapes. Code is a list of instructions, each with the shape that the
stack has in front of it: how many values there are, and which of them are
names or objects that an instruction further on relies on. An instruction
fits if it finds the operands it needs, on the stack and behind its
opcode, and leaves the stack in the shape that is given at whichever
instruction comes next (`Step.Fits`).

Code that leads from one shape to another can be put in front of code that
starts with the second (`Leads.append`).
-/
import BoardScript.Proofs.Code.Assembly

namespace BoardScript

open Compile

-- ================================================================== shapes

/-- What is known of a value on the stack. -/
inductive Slot where
  | any
  | name
  | object
deriving DecidableEq

/-- What is known of a stack, from the top down. -/
abbrev Shape := List Slot

namespace Shape

/-- A number of values on top. -/
def values (count : Nat) (below : Shape) : Shape := List.replicate count .any ++ below

/-- A number of names on top, each with a value above it. -/
def pairs : Nat → Shape → Shape
  | 0, below => below
  | count + 1, below => .any :: .name :: pairs count below

theorem values_succ (count : Nat) (below : Shape) :
    values (count + 1) below = values count (.any :: below) := by
  rw [values, values, List.replicate_succ', List.append_assoc]
  rfl

theorem pairs_succ (count : Nat) (below : Shape) :
    pairs (count + 1) below = pairs count (.any :: .name :: below) := by
  induction count with
  | zero => rfl
  | succ count ih => rw [pairs, ih]; rfl

end Shape

-- ============================================================ instructions

/-- An instruction, where it is from, and the shape in front of it. -/
structure Step where
  op : OpCode
  args : List UInt8
  span : Span
  shape : Shape

namespace Step

def code (s : Step) : Code := Compile.op s.op s.span ++ s.args.map fun byte => (byte, none)

def width (s : Step) : Nat := 1 + s.args.length

theorem length_code (s : Step) : s.code.length = s.width := by
  simp [code, width, Compile.op, Nat.add_comm]

/-- A place of a text. -/
def Text (constants : List Constant) (place : UInt8) : Prop :=
  ∃ text, constants[place.toNat]? = some (.string text)

/-- The distance in the operand of a jump. -/
def distance (high low : UInt8) : Nat := high.toNat * 256 + low.toNat

/-- What an instruction needs, and what shape it leaves at the instructions
that can come next; `next` is the offset behind it. Of what is taken from
the stack for its value nothing is known. -/
inductive Fits (constants : List Constant) (at' : Nat → Option Shape) (next : Nat) :
    OpCode → List UInt8 → Shape → Prop
  | number {place : UInt8} {s : Shape} (x : Float)
      (hc : constants[place.toNat]? = some (.number x)) (h : at' next = some (.any :: s)) :
      Fits constants at' next .constant [place] s
  | text {place : UInt8} {s : Shape} (hc : Text constants place)
      (h : at' next = some (.any :: s)) : Fits constants at' next .constant [place] s
  | key {place : UInt8} {s : Shape} (hc : Text constants place)
      (h : at' next = some (.name :: s)) : Fits constants at' next .constant [place] s
  | undefined {s : Shape} (h : at' next = some (.any :: s)) : Fits constants at' next .undefined [] s
  | yes {s : Shape} (h : at' next = some (.any :: s)) : Fits constants at' next .true [] s
  | no {s : Shape} (h : at' next = some (.any :: s)) : Fits constants at' next .false [] s
  | pop {slot : Slot} {s : Shape} (h : at' next = some s) : Fits constants at' next .pop [] (slot :: s)
  | getName {place : UInt8} {s : Shape} (hc : Text constants place)
      (h : at' next = some (.any :: s)) : Fits constants at' next .getName [place] s
  | getCallee {place : UInt8} {s : Shape} (hc : Text constants place)
      (h : at' next = some (.any :: s)) : Fits constants at' next .getCallee [place] s
  | useBoard {place : UInt8} {s : Shape} (hc : Text constants place)
      (h : at' next = some (.any :: s)) : Fits constants at' next .useBoard [place] s
  | setLocal {place : UInt8} {s : Shape} (hc : Text constants place)
      (h : at' next = some (.any :: s)) : Fits constants at' next .setLocal [place] (.any :: s)
  | getProperty {place : UInt8} {s : Shape} (hc : Text constants place)
      (h : at' next = some (.any :: s)) : Fits constants at' next .getProperty [place] (.any :: s)
  | setProperty {place : UInt8} {s : Shape} (hc : Text constants place)
      (h : at' next = some (.any :: s)) :
      Fits constants at' next .setProperty [place] (.any :: .any :: s)
  | getIndex {s : Shape} (h : at' next = some (.any :: s)) :
      Fits constants at' next .getIndex [] (.any :: .any :: s)
  | setIndex {s : Shape} (h : at' next = some (.any :: s)) :
      Fits constants at' next .setIndex [] (.any :: .any :: .any :: s)
  | coordinate {byte : UInt8} {s : Shape} (axis : Axis) (hb : Axis.ofByte? byte = some axis)
      (h : at' next = some (.any :: s)) : Fits constants at' next .coordinate [byte] (.any :: s)
  | binary {byte : UInt8} {s : Shape} (operator : BinaryOperator)
      (hb : BinaryOperator.ofByte? byte = some operator) (h : at' next = some (.any :: s)) :
      Fits constants at' next .binary [byte] (.any :: .any :: s)
  | negate {s : Shape} (h : at' next = some (.any :: s)) :
      Fits constants at' next .negate [] (.any :: s)
  | not {s : Shape} (h : at' next = some (.any :: s)) : Fits constants at' next .not [] (.any :: s)
  | delete {s : Shape} (h : at' next = some (.any :: s)) :
      Fits constants at' next .delete [] (.any :: s)
  | jump {high low : UInt8} {s : Shape} (h : at' (next + distance high low) = some s) :
      Fits constants at' next .jump [high, low] s
  | jumpIfFalse {high low : UInt8} {s : Shape} (h : at' next = some (.any :: s))
      (hjump : at' (next + distance high low) = some (.any :: s)) :
      Fits constants at' next .jumpIfFalse [high, low] (.any :: s)
  | loop {high low : UInt8} {s : Shape} (hback : distance high low ≤ next)
      (h : at' (next - distance high low) = some s) : Fits constants at' next .loop [high, low] s
  | array {count : UInt8} {s : Shape} (h : at' next = some (.any :: s)) :
      Fits constants at' next .array [count] (Shape.values count.toNat s)
  | object {count : UInt8} {s : Shape} (h : at' next = some (.any :: s)) :
      Fits constants at' next .object [count] (Shape.pairs count.toNat s)
  | attributes {count : UInt8} {s : Shape} (h : at' next = some (.object :: s)) :
      Fits constants at' next .object [count] (Shape.pairs count.toNat s)
  | closure {place : UInt8} {s : Shape} (literal : FunctionLiteral) (chunk : Chunk)
      (hc : constants[place.toNat]? = some (.function literal chunk))
      (h : at' next = some (.any :: s)) : Fits constants at' next .closure [place] s
  | call {count place : UInt8} {s : Shape} (hc : Text constants place)
      (h : at' next = some (.any :: s)) :
      Fits constants at' next .call [count, place] (Shape.values count.toNat (.any :: s))
  | callWithAttributes {count place : UInt8} {s : Shape} (hc : Text constants place)
      (h : at' next = some (.any :: s)) : Fits constants at' next .callWithAttributes
        [count, place] (.object :: Shape.values count.toNat (.any :: s))
  | callNamed {count place name : UInt8} {s : Shape} (hc : Text constants place)
      (hname : Text constants name) (h : at' next = some (.any :: s)) :
      Fits constants at' next .callNamed [count, place, name] (Shape.values count.toNat (.any :: s))
  | giveBack : Fits constants at' next .giveBack [] [.any]
  | stop : Fits constants at' next .stop [] [.any]

end Step

/-- The bytes of instructions. -/
def codeOf (steps : List Step) : Code := steps.flatMap Step.code

@[simp] theorem codeOf_nil : codeOf [] = [] := rfl

@[simp] theorem codeOf_cons (s : Step) (steps : List Step) :
    codeOf (s :: steps) = s.code ++ codeOf steps := rfl

@[simp] theorem codeOf_append (a b : List Step) : codeOf (a ++ b) = codeOf a ++ codeOf b :=
  List.flatMap_append

/-- Instructions from an offset on all fit. -/
def Fitting (constants : List Constant) (at' : Nat → Option Shape) : Nat → List Step → Prop
  | _, [] => True
  | offset, s :: rest => Step.Fits constants at' (offset + s.width) s.op s.args s.shape ∧
      Fitting constants at' (offset + s.width) rest

/-- The shape in front of the first instruction, or the one behind all. -/
def firstShape (last : Option Shape) : List Step → Option Shape
  | [] => last
  | s :: _ => some s.shape

/-- The shapes at the offsets of instructions are those given with them;
`last` is the shape behind them, if control can get there. -/
def Shaped (at' : Nat → Option Shape) (last : Option Shape) : Nat → List Step → Prop
  | offset, [] => ∀ s, last = some s → at' offset = some s
  | offset, s :: rest => at' offset = some s.shape ∧ Shaped at' last (offset + s.width) rest

section

variable {constants : List Constant} {at' : Nat → Option Shape} {last : Option Shape} {offset : Nat}

theorem Shaped.first {steps : List Step} (h : Shaped at' last offset steps) {s : Shape}
    (hs : firstShape last steps = some s) : at' offset = some s := by
  cases steps with
  | nil => exact h s hs
  | cons step steps => exact h.1.trans hs

theorem Shaped.behind {steps : List Step} {exit : Shape} (h : Shaped at' (some exit) offset steps) :
    at' (offset + (codeOf steps).length) = some exit := by
  induction steps generalizing offset with
  | nil => exact h exit rfl
  | cons step steps ih =>
      rw [codeOf_cons, List.length_append, Step.length_code, ← Nat.add_assoc]
      exact ih h.2

theorem Shaped.split {a b : List Step} (h : Shaped at' last offset (a ++ b)) :
    Shaped at' (firstShape last b) offset a ∧ Shaped at' last (offset + (codeOf a).length) b := by
  induction a generalizing offset with
  | nil => exact ⟨fun s hs => Shaped.first h hs, h⟩
  | cons step a ih =>
      obtain ⟨hfirst, hrest⟩ := ih h.2
      refine ⟨⟨h.1, hfirst⟩, ?_⟩
      rwa [codeOf_cons, List.length_append, Step.length_code, ← Nat.add_assoc]

theorem fitting_append {a b : List Step} :
    Fitting constants at' offset (a ++ b) ↔
      Fitting constants at' offset a ∧ Fitting constants at' (offset + (codeOf a).length) b := by
  induction a generalizing offset with
  | nil => simp [Fitting]
  | cons step a ih =>
      simp only [List.cons_append, Fitting, ih, codeOf_cons, List.length_append, Step.length_code,
        and_assoc, ← Nat.add_assoc]

end

-- ==================================================================== code

/-- Code that leads from one shape to another, whatever stands around it. -/
def Leads (constants : List Constant) (code : Code) (entry exit : Shape) : Prop :=
  ∃ steps, code = codeOf steps ∧ firstShape (some exit) steps = some entry ∧
    ∀ at' offset, Shaped at' (some exit) offset steps → Fitting constants at' offset steps

namespace Leads

variable {constants : List Constant} {a b : Code} {entry middle exit : Shape}

theorem nil : Leads constants [] entry entry :=
  ⟨[], rfl, rfl, fun _ _ _ => trivial⟩

theorem append (ha : Leads constants a entry middle) (hb : Leads constants b middle exit) :
    Leads constants (a ++ b) entry exit := by
  obtain ⟨stepsA, rfl, hentry, hfitA⟩ := ha
  obtain ⟨stepsB, rfl, hmiddle, hfitB⟩ := hb
  refine ⟨stepsA ++ stepsB, (codeOf_append _ _).symm, ?_, fun at' offset h => ?_⟩
  · cases stepsA with
    | nil => exact hmiddle.trans hentry
    | cons step stepsA => exact hentry
  · obtain ⟨hA, hB⟩ := h.split
    rw [hmiddle] at hA
    exact fitting_append.2 ⟨hfitA at' offset hA, hfitB at' _ hB⟩

/-- One instruction, of which only the instruction behind it can come next. -/
theorem single (code : OpCode) (args : List UInt8) (span : Span)
    (h : ∀ at' next, at' next = some exit → Step.Fits constants at' next code args entry) :
    Leads constants (op code span ++ args.map fun byte => (byte, none)) entry exit :=
  ⟨[⟨code, args, span, entry⟩], by simp [Step.code], rfl, fun _ _ hs =>
    ⟨h _ _ (hs.2 exit rfl), trivial⟩⟩

/-- An instruction without operands. -/
theorem plain (code : OpCode) (span : Span)
    (h : ∀ at' next, at' next = some exit → Step.Fits constants at' next code [] entry) :
    Leads constants (op code span) entry exit :=
  single code [] span h

/-- An instruction with one operand. -/
theorem withOperand (code : OpCode) (byte : UInt8) (span : Span)
    (h : ∀ at' next, at' next = some exit → Step.Fits constants at' next code [byte] entry) :
    Leads constants (op code span ++ operand byte) entry exit :=
  single code [byte] span h

/-- The shape at an offset, however the offset is reached. -/
theorem at_of_eq {at' : Nat → Option Shape} {i j : Nat} {s : Shape} (h : at' j = some s)
    (hij : i = j) : at' i = some s := hij ▸ h

/-- The instruction of a jump. -/
def jumpStep (code : OpCode) (distance : Nat) (span : Span) (shape : Shape) : Step :=
  ⟨code, [(distance / 256).toUInt8, (distance % 256).toUInt8], span, shape⟩

@[simp] theorem code_jumpStep (code : OpCode) (distance : Nat) (span : Span) (shape : Shape) :
    (jumpStep code distance span shape).code = op code span ++ distanceCode distance := rfl

@[simp] theorem width_jumpStep (code : OpCode) (distance : Nat) (span : Span) (shape : Shape) :
    (jumpStep code distance span shape).width = jumpWidth := rfl

theorem distance_bytes {distance : Nat} (h : distance < 65536) :
    Step.distance (distance / 256).toUInt8 (distance % 256).toUInt8 = distance := by
  have : distance / 256 < 256 := by omega
  simp [Step.distance, Nat.mod_eq_of_lt this]
  omega

/-- The instruction that takes a value away. -/
def popStep (span : Span) (below : Shape) : Step := ⟨.pop, [], span, .any :: below⟩

@[simp] theorem code_popStep (span : Span) (below : Shape) :
    (popStep span below).code = op .pop span := rfl

@[simp] theorem width_popStep (span : Span) (below : Shape) : (popStep span below).width = 1 := rfl

/-- The instruction that puts nothing on the stack. -/
def undefinedStep (span : Span) (below : Shape) : Step := ⟨.undefined, [], span, below⟩

@[simp] theorem code_undefinedStep (span : Span) (below : Shape) :
    (undefinedStep span below).code = op .undefined span := rfl

/-- A choice: whichever branch is taken, the other is jumped over. -/
theorem choice {yes no : Code} {below : Shape} {span : Span}
    (hyes : Leads constants yes below (.any :: below))
    (hno : Leads constants no below (.any :: below))
    (hskipYes : 1 + yes.length + jumpWidth < 65536) (hskipNo : 1 + no.length < 65536) :
    Leads constants
      (op .jumpIfFalse span ++ distanceCode (1 + yes.length + jumpWidth) ++ op .pop span ++ yes ++
        (op .jump span ++ distanceCode (1 + no.length)) ++ op .pop span ++ no)
      (.any :: below) (.any :: below) := by
  obtain ⟨stepsYes, rfl, hentryYes, hfitYes⟩ := hyes
  obtain ⟨stepsNo, rfl, hentryNo, hfitNo⟩ := hno
  refine ⟨jumpStep .jumpIfFalse (1 + (codeOf stepsYes).length + jumpWidth) span (.any :: below) ::
    popStep span below :: (stepsYes ++ jumpStep .jump (1 + (codeOf stepsNo).length) span
      (.any :: below) :: popStep span below :: stepsNo), ?_, rfl, fun at' offset h => ?_⟩
  · simp [List.append_assoc]
  · obtain ⟨-, hpop, hrest⟩ := h
    obtain ⟨hyes, -, hpop', hno⟩ := hrest.split
    have hend := hno.behind
    simp only [width_jumpStep, width_popStep] at hpop hyes hpop' hno hend ⊢
    refine ⟨.jumpIfFalse hpop ?_, .pop (hyes.first hentryYes), fitting_append.2
      ⟨hfitYes at' _ hyes, .jump ?_, .pop (hno.first hentryNo), hfitNo at' _ hno⟩⟩
    · rw [distance_bytes hskipYes]
      exact at_of_eq hpop' (by simp only [width_jumpStep]; omega)
    · rw [distance_bytes hskipNo]
      exact at_of_eq hend (by simp only [width_jumpStep, width_popStep]; omega)

/-- A loop: the condition, a way out, the turn, and the way back. -/
theorem loop {condition turn : Code} {below : Shape} {span : Span}
    (hcondition : Leads constants condition below (.any :: below))
    (hturn : Leads constants turn below below)
    (hback : condition.length + jumpWidth + 1 + turn.length + jumpWidth < 65536)
    (hexit : 1 + turn.length + jumpWidth < 65536) :
    Leads constants
      (condition ++ (op .jumpIfFalse span ++ distanceCode (1 + turn.length + jumpWidth) ++
        op .pop span ++ turn ++ (op .loop span ++ distanceCode
          (condition.length + jumpWidth + 1 + turn.length + jumpWidth)) ++
        op .pop span ++ op .undefined span))
      below (.any :: below) := by
  obtain ⟨stepsCond, rfl, hentryCond, hfitCond⟩ := hcondition
  obtain ⟨stepsTurn, rfl, hentryTurn, hfitTurn⟩ := hturn
  refine ⟨stepsCond ++
    jumpStep .jumpIfFalse (1 + (codeOf stepsTurn).length + jumpWidth) span (.any :: below) ::
    popStep span below :: (stepsTurn ++
    [jumpStep .loop ((codeOf stepsCond).length + jumpWidth + 1 + (codeOf stepsTurn).length +
      jumpWidth) span below, popStep span below, undefinedStep span below]), ?_, ?_,
    fun at' offset h => ?_⟩
  · simp [List.append_assoc]
  · cases stepsCond with
    | nil => exact hentryCond
    | cons step stepsCond => exact hentryCond
  · obtain ⟨hcond, -, hpop, hrest⟩ := h.split
    obtain ⟨hturn, -, hpop', hundefined, hend⟩ := hrest.split
    have hstart := hcond.first hentryCond
    simp only [width_jumpStep, width_popStep] at hpop hturn hpop' hundefined hend
    refine fitting_append.2 ⟨hfitCond at' _ hcond, .jumpIfFalse hpop ?_,
      .pop (hturn.first hentryTurn), fitting_append.2
        ⟨hfitTurn at' _ hturn, .loop ?_ ?_, .pop hundefined, .undefined (hend _ rfl), trivial⟩⟩
    · rw [distance_bytes hexit]
      exact at_of_eq hpop' (by simp only [width_jumpStep]; omega)
    · rw [distance_bytes hback]
      simp only [width_jumpStep, width_popStep]
      omega
    · rw [distance_bytes hback]
      exact at_of_eq hstart (by simp only [width_jumpStep, width_popStep]; omega)

/-- A conjunction: a value that does not hold stays, else the right side
takes its place. -/
theorem conjunction {right : Code} {below : Shape} {span : Span}
    (hright : Leads constants right below (.any :: below)) (hskip : 1 + right.length < 65536) :
    Leads constants
      (op .jumpIfFalse span ++ distanceCode (1 + right.length) ++ op .pop span ++ right)
      (.any :: below) (.any :: below) := by
  obtain ⟨steps, rfl, hentry, hfit⟩ := hright
  refine ⟨jumpStep .jumpIfFalse (1 + (codeOf steps).length) span (.any :: below) ::
    popStep span below :: steps, ?_, rfl, fun at' offset h => ?_⟩
  · simp [List.append_assoc]
  · obtain ⟨-, hpop, hright⟩ := h
    have hend := hright.behind
    simp only [width_jumpStep, width_popStep] at hpop hright hend
    refine ⟨.jumpIfFalse hpop ?_, .pop (hright.first hentry), hfit at' _ hright⟩
    rw [distance_bytes hskip]
    exact at_of_eq hend (by simp only [width_jumpStep]; omega)

/-- A disjunction: a value that holds stays, else the right side takes its
place. -/
theorem disjunction {right : Code} {below : Shape}
    (hright : Leads constants right below (.any :: below)) (span : Span)
    (hskip : 1 + right.length < 65536) :
    Leads constants
      (op .jumpIfFalse span ++ distanceCode jumpWidth ++
        (op .jump span ++ distanceCode (1 + right.length)) ++ op .pop span ++ right)
      (.any :: below) (.any :: below) := by
  obtain ⟨steps, rfl, hentry, hfit⟩ := hright
  refine ⟨jumpStep .jumpIfFalse jumpWidth span (.any :: below) ::
    jumpStep .jump (1 + (codeOf steps).length) span (.any :: below) ::
    popStep span below :: steps, ?_, rfl, fun at' offset h => ?_⟩
  · simp [List.append_assoc]
  · obtain ⟨-, hjump, hpop, hright⟩ := h
    have hend := hright.behind
    simp only [width_jumpStep, width_popStep] at hjump hpop hright hend
    refine ⟨.jumpIfFalse hjump ?_, .jump ?_, .pop (hright.first hentry), hfit at' _ hright⟩
    · rw [distance_bytes (by decide)]
      exact hpop
    · rw [distance_bytes hskip]
      exact at_of_eq hend (by simp only [width_jumpStep]; omega)

end Leads

end BoardScript
