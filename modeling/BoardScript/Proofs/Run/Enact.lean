/-
Code that enacts a plan wherever it stands. From values on top of a stack
it leads to others, and does what the plan says on the way (`Enacts`); what
lies below stays. Such code can be put one behind the other, and choices
and loops can be made of it: a jump goes over as many bytes as the code
that it was made with has.
-/
import BoardScript.Proofs.Run.Carry

namespace BoardScript

open Compile BoardScript.Frame

variable {α β γ : Type}

/-- Code that enacts a plan, from values on top of the stack to others. -/
def Enacts (source : Source) (turns : Nat) (constants : List Constant) (code : Code) (p : Plan α)
    (entry : List Value) (exit : α → List Value) : Prop :=
  ∀ (env : Env) (chunk : Chunk) (offset : Nat) (stack : List Value),
    env.source = source → chunk.constants = constants → chunk.Has offset code →
      Carries env chunk turns ⟨offset, entry ++ stack⟩ p fun a =>
        ⟨offset + code.length, exit a ++ stack⟩

namespace Enacts

variable {source : Source} {turns : Nat} {constants : List Constant} {code more : Code}
  {p : Plan α} {q : α → Plan β} {entry : List Value} {mid : α → List Value} {exit : β → List Value}
  {span : Span}

theorem nil (exit : β → List Value) (a : β) :
    Enacts source turns constants [] (.give a) (exit a) exit :=
  fun _ _ _ _ _ _ _ => .give

/-- One code behind the other, for all that the first can come to. -/
theorem append_of {P : α → Prop} (hgives : p.Gives P)
    (hp : Enacts source turns constants code p entry mid)
    (hq : ∀ a, P a → Enacts source turns constants more (q a) (mid a) exit) :
    Enacts source turns constants (code ++ more) (p >>= q) entry exit := by
  intro env chunk offset stack hsource hconstants hhas
  obtain ⟨hcode, hmore⟩ := Chunk.has_append.1 hhas
  rw [List.length_append, ← Nat.add_assoc]
  exact (hp env chunk offset stack hsource hconstants hcode).bind_of hgives fun a ha =>
    hq a ha env chunk _ stack hsource hconstants hmore

theorem append (hp : Enacts source turns constants code p entry mid)
    (hq : ∀ a, Enacts source turns constants more (q a) (mid a) exit) :
    Enacts source turns constants (code ++ more) (p >>= q) entry exit :=
  append_of (P := fun _ => True) (Plan.gives_of_forall (fun _ => trivial) p) hp fun a _ => hq a

/-- What a plan comes to can be made into something else on the way. -/
theorem map {f : α → β} (hp : Enacts source turns constants code p entry mid)
    (hexit : ∀ a, mid a = exit (f a)) :
    Enacts source turns constants code (p >>= fun a => pure (f a)) entry exit := by
  intro env chunk offset stack hsource hconstants hhas
  refine (hp env chunk offset stack hsource hconstants hhas).bind fun a => ?_
  rw [hexit]
  exact .give

/-- Whatever lies below stays there. -/
theorem above (hp : Enacts source turns constants code p entry mid) (below : List Value) :
    Enacts source turns constants code p (entry ++ below) fun a => mid a ++ below := by
  intro env chunk offset stack hsource hconstants hhas
  have h := hp env chunk offset (below ++ stack) hsource hconstants hhas
  simp only [List.append_assoc]
  exact h

/-- An instruction that calls nothing. -/
theorem instr {op : OpCode} (args : List UInt8) {x : Eval α} {steady : Steady x}
    (hwidth : args.length = op.operandWidth)
    (h : ∀ (env : Env) (chunk : Chunk) (ip : Nat) (stack : List Value), env.source = source →
      chunk.constants = constants → chunk.Instruction ip op args span →
        perform env chunk span (ip + 1) (entry ++ stack) op = (do
          let a ← x
          return .next ⟨ip + 1 + args.length, mid a ++ stack⟩)) :
    Enacts source turns constants (Compile.op op span ++ args.map fun byte => (byte, none))
      (Plan.instr span x steady) entry mid := by
  intro env chunk offset stack hsource hconstants hhas
  have hinstr := Chunk.instruction_of_has hwidth hhas
  have hlength : (Compile.op op span ++ args.map fun byte => (byte, none)).length
      = 1 + args.length := by simp [Compile.op, Nat.add_comm]
  rw [hlength, ← Nat.add_assoc]
  refine (Carries.act (q := .give) _ ?_ fun a => .give).mono (Nat.le_succ _)
  rw [step_eq hinstr, h env chunk offset stack hsource hconstants hinstr]

/-- An instruction without operands. -/
theorem plain {op : OpCode} {x : Eval α} {steady : Steady x} (hwidth : op.operandWidth = 0)
    (h : ∀ (env : Env) (chunk : Chunk) (ip : Nat) (stack : List Value),
        perform env chunk span (ip + 1) (entry ++ stack) op = (do
          let a ← x
          return .next ⟨ip + 1, mid a ++ stack⟩)) :
    Enacts source turns constants (Compile.op op span) (Plan.instr span x steady) entry mid :=
  instr [] hwidth.symm fun env chunk ip stack _ _ _ => h env chunk ip stack

/-- An instruction with one operand. -/
theorem withOperand {op : OpCode} {byte : UInt8} {x : Eval α} {steady : Steady x}
    (hwidth : op.operandWidth = 1)
    (h : ∀ (env : Env) (chunk : Chunk) (ip : Nat) (stack : List Value), env.source = source →
      chunk.constants = constants → chunk.Instruction ip op [byte] span →
        perform env chunk span (ip + 1) (entry ++ stack) op = (do
          let a ← x
          return .next ⟨ip + 2, mid a ++ stack⟩)) :
    Enacts source turns constants (Compile.op op span ++ operand byte) (Plan.instr span x steady)
      entry mid :=
  instr [byte] hwidth.symm h

theorem pop {v : Value} {rest : List Value} :
    Enacts source turns constants (op .pop span) (Plan.move span) (v :: rest) fun _ => rest :=
  plain rfl fun _ _ _ _ => rfl

theorem undefined {rest : List Value} :
    Enacts source turns constants (op .undefined span) (Plan.move span) rest
      fun _ => .undefined :: rest :=
  plain rfl fun _ _ _ _ => rfl

/-- Code that leaves a value, and the instruction that takes it away. -/
theorem dropped {p : Plan Value} {q : Plan β} (hp : Enacts source turns constants code p [] fun v => [v])
    (hq : Enacts source turns constants more q [] exit) :
    Enacts source turns constants (code ++ op .pop span ++ more) (do
      let _ ← p
      Plan.move span
      q) [] exit := by
  rw [List.append_assoc]
  exact hp.append fun v => pop.append fun _ => hq

end Enacts

-- ===================================================================== jumps

section

variable {env : Env} {chunk : Chunk} {ip distance : Nat} {span : Span} {v : Value}
  {stack : List Value}

/-- A jump that stands at a place. -/
theorem jump_of_has {op : OpCode} (hwidth : op.operandWidth = 2)
    (h : chunk.Has ip (Compile.op op span ++ distanceCode distance)) :
    chunk.Instruction ip op [(distance / 256).toUInt8, (distance % 256).toUInt8] span :=
  Chunk.instruction_of_has hwidth.symm h

theorem distance_bytes (h : distance < 65536) :
    (distance / 256).toUInt8.toNat * 256 + (distance % 256).toUInt8.toNat = distance :=
  Leads.distance_bytes h

theorem step_jump (hdistance : distance < 65536)
    (h : chunk.Has ip (op .jump span ++ distanceCode distance)) :
    step env chunk ⟨ip, stack⟩ = (do
      env.ask span
      return .next ⟨ip + 3 + distance, stack⟩) := by
  have hinstr := jump_of_has rfl h
  rw [step_eq hinstr, perform_jump hinstr, distance_bytes hdistance]

theorem step_jumpIfFalse (hdistance : distance < 65536)
    (h : chunk.Has ip (op .jumpIfFalse span ++ distanceCode distance)) :
    step env chunk ⟨ip, v :: stack⟩ = (do
      env.ask span
      return .next ⟨if v.truthy then ip + 3 else ip + 3 + distance, v :: stack⟩) := by
  have hinstr := jump_of_has rfl h
  rw [step_eq hinstr, perform_jumpIfFalse hinstr, distance_bytes hdistance]
  split <;> rfl

theorem step_loop (hdistance : distance < 65536) (hback : distance ≤ ip + 3)
    (h : chunk.Has ip (op .loop span ++ distanceCode distance)) :
    step env chunk ⟨ip, stack⟩ = (do
      env.ask span
      return .next ⟨ip + 3 - distance, stack⟩) := by
  have hinstr := jump_of_has rfl h
  rw [step_eq hinstr, perform_loop hinstr (by rwa [distance_bytes hdistance]),
    distance_bytes hdistance]

theorem step_pop (h : chunk.Has ip (op .pop span)) :
    step env chunk ⟨ip, v :: stack⟩ = (do
      env.ask span
      return .next ⟨ip + 1, stack⟩) := by
  rw [step_eq (Chunk.instruction_of_op rfl h)]
  rfl

theorem step_undefined (h : chunk.Has ip (op .undefined span)) :
    step env chunk ⟨ip, stack⟩ = (do
      env.ask span
      return .next ⟨ip + 1, .undefined :: stack⟩) := by
  rw [step_eq (Chunk.instruction_of_op rfl h)]
  rfl

end

@[simp] theorem length_op (code : OpCode) (span : Span) : (op code span).length = 1 := rfl

@[simp] theorem length_distanceCode (distance : Nat) : (distanceCode distance).length = 2 := rfl

theorem Chunk.Has.at {chunk : Chunk} {code : Code} {i j : Nat} (h : chunk.Has i code)
    (hij : j = i) : chunk.Has j code := hij ▸ h

namespace Carries

variable {env : Env} {chunk : Chunk} {limit i j : Nat} {p : Plan α}

/-- A plan may lead to places that are told in another way. -/
theorem congr {frame : Frame} {next next' : α → Frame} (h : Carries env chunk limit frame p next)
    (hnext : ∀ a, next' a = next a) : Carries env chunk limit frame p next' := by
  obtain rfl : next' = next := funext hnext
  exact h

theorem give_at {a : α} {stack : List Value} {left : α → List Value} (hstack : stack = left a)
    (hij : i = j) : Carries env chunk limit ⟨i, stack⟩ (.give a) fun a => ⟨j, left a⟩ := by
  rw [hij, hstack]
  exact .give

end Carries

namespace Enacts

variable {source : Source} {turns : Nat} {constants : List Constant} {span : Span}

/-- A choice by a value on the stack. -/
theorem choice {yes no : Code} {p q : Plan Value} {v : Value}
    (hyes : Enacts source turns constants yes p [] fun v => [v])
    (hno : Enacts source turns constants no q [] fun v => [v])
    (hskipYes : 1 + yes.length + jumpWidth < 65536) (hskipNo : 1 + no.length < 65536) :
    Enacts source turns constants
      (op .jumpIfFalse span ++ distanceCode (1 + yes.length + jumpWidth) ++ op .pop span ++ yes ++
        (op .jump span ++ distanceCode (1 + no.length)) ++ op .pop span ++ no)
      (Plan.choice v p q span) [v] fun v => [v] := by
  intro env chunk offset stack hsource hconstants hhas
  obtain ⟨hhas, hcodeNo⟩ := Chunk.has_append.1 hhas
  obtain ⟨hhas, hpopNo⟩ := Chunk.has_append.1 hhas
  obtain ⟨hhas, hjump⟩ := Chunk.has_append.1 hhas
  obtain ⟨hhas, hcodeYes⟩ := Chunk.has_append.1 hhas
  obtain ⟨htest, hpopYes⟩ := Chunk.has_append.1 hhas
  refine Carries.mono (Carries.move (step_jumpIfFalse hskipYes htest) ?_) (Nat.le_succ turns)
  cases v.truthy with
  | true =>
      refine Carries.mono (Carries.move (step_pop (hpopYes.at rfl)) ?_) (Nat.le_succ turns)
      refine (hyes env chunk _ stack hsource hconstants (hcodeYes.at rfl)).bind fun w => ?_
      refine Carries.mono (Carries.move (step_jump hskipNo (hjump.at ?_)) ?_) (Nat.le_succ turns)
      · simp
        omega
      · refine Carries.give_at rfl ?_
        simp
        omega
  | false =>
      refine Carries.mono (Carries.move (step_pop (hpopNo.at ?_)) ?_) (Nat.le_succ turns)
      · simp [jumpWidth]
        omega
      · refine Carries.congr (hno env chunk _ stack hsource hconstants (hcodeNo.at ?_)) fun w => ?_
        · simp [jumpWidth]
          omega
        · simp [jumpWidth]
          omega

/-- The code of a loop behind its condition: the way out, the turn, and the
way back over a distance. -/
def tail (body : Code) (back : Nat) (span : Span) : Code :=
  op .jumpIfFalse span ++ distanceCode (1 + body.length + jumpWidth) ++ op .pop span ++ body ++
    (op .loop span ++ distanceCode back) ++ op .pop span ++ op .undefined span

theorem length_tail (body : Code) (back : Nat) : (tail body back span).length = body.length + 9 := by
  simp [tail]
  omega

/-- A loop whose condition and turn are carried out. -/
theorem loop {env : Env} {chunk : Chunk} {start behind back : Nat} {body : Code} {stack : List Value}
    {p : Plan Value} {q : Plan Unit} (hhas : chunk.Has behind (tail body back span))
    (hexit : 1 + body.length + jumpWidth < 65536)
    (hcondition : Carries env chunk turns ⟨start, stack⟩ p fun v => ⟨behind, v :: stack⟩)
    (hturn : Carries env chunk turns ⟨behind + 4, stack⟩ q fun _ => ⟨start, stack⟩) :
    Carries env chunk turns ⟨start, stack⟩ (Plan.looping p q span turns) fun v =>
      ⟨behind + (tail body back span).length, v :: stack⟩ := by
  obtain ⟨hhas, hundefined⟩ := Chunk.has_append.1 hhas
  obtain ⟨hhas, hpopOut⟩ := Chunk.has_append.1 hhas
  obtain ⟨hhas, -⟩ := Chunk.has_append.1 hhas
  obtain ⟨hhas, -⟩ := Chunk.has_append.1 hhas
  obtain ⟨htest, hpopIn⟩ := Chunk.has_append.1 hhas
  have hchosen (v : Value) : step env chunk ⟨if v.truthy then behind + 3
        else behind + 3 + (1 + body.length + jumpWidth), v :: stack⟩ = (do
      env.ask span
      return .next (if v.truthy then ⟨behind + 4, stack⟩ else ⟨behind + body.length + 8, stack⟩)) := by
    cases v.truthy with
    | true => exact step_pop (hpopIn.at rfl)
    | false =>
        have hplace : behind + 3 + (1 + body.length + jumpWidth) + 1 = behind + body.length + 8 := by
          simp only [jumpWidth]
          omega
        refine (step_pop (hpopOut.at ?_)).trans (by rw [← hplace]; rfl)
        simp [jumpWidth]
        omega
  have hlast : step env chunk ⟨behind + body.length + 8, stack⟩ = (do
      env.ask span
      return .next ⟨behind + (tail body back span).length, .undefined :: stack⟩) := by
    rw [length_tail]
    refine step_undefined (hundefined.at ?_)
    simp
    omega
  exact Carries.looping hcondition (fun v => step_jumpIfFalse hexit htest) hchosen hturn hlast

/-- The way back of a loop. -/
theorem step_back {env : Env} {chunk : Chunk} {start behind back : Nat} {body : Code}
    {stack : List Value} (hhas : chunk.Has behind (tail body back span)) (hback : back < 65536)
    (hstart : behind + body.length + 7 = start + back) :
    step env chunk ⟨behind + 4 + body.length, stack⟩ = (do
      env.ask span
      return .next ⟨start, stack⟩) := by
  obtain ⟨hhas, -⟩ := Chunk.has_append.1 hhas
  obtain ⟨hhas, -⟩ := Chunk.has_append.1 hhas
  obtain ⟨-, hloop⟩ := Chunk.has_append.1 hhas
  have hplace : behind + 4 + body.length + 3 - back = start := by omega
  refine (step_loop hback (by omega) (hloop.at ?_)).trans (by rw [hplace])
  simp
  omega

/-- A loop that begins with its condition. -/
theorem whileLoop (span : Span) {condition body : Code} {p : Plan Value} {q : Plan Unit}
    (hcondition : Enacts source turns constants condition p [] fun v => [v])
    (hbody : Enacts source turns constants body q [] fun _ => [])
    (hback : condition.length + jumpWidth + 1 + body.length + jumpWidth < 65536)
    (hexit : 1 + body.length + jumpWidth < 65536) :
    Enacts source turns constants
      (condition ++ tail body (condition.length + jumpWidth + 1 + body.length + jumpWidth) span)
      (Plan.looping p (do
        q
        Plan.move span) span turns) [] fun v => [v] := by
  intro env chunk offset stack hsource hconstants hhas
  obtain ⟨hcode, hhas⟩ := Chunk.has_append.1 hhas
  have hcodeBody : chunk.Has (offset + condition.length + 4) body :=
    (Chunk.has_append.1 (Chunk.has_append.1 (Chunk.has_append.1
      (Chunk.has_append.1 hhas).1).1).1).2
  have hturn : Carries env chunk turns ⟨offset + condition.length + 4, stack⟩ (do
      q
      Plan.move span) fun _ => ⟨offset, stack⟩ := by
    refine (hbody env chunk _ stack hsource hconstants hcodeBody).bind fun _ => ?_
    refine Carries.mono (Carries.move (q := .give) (step_back hhas hback ?_) .give)
      (Nat.le_succ turns)
    simp only [jumpWidth]
    omega
  rw [List.length_append, ← Nat.add_assoc]
  exact loop hhas hexit (hcondition env chunk offset stack hsource hconstants hcode) hturn

/-- A loop that begins with its turn. -/
theorem doLoop {condition body : Code} {p : Plan Value} {q : Plan Value}
    (hbody : Enacts source turns constants body q [] fun v => [v])
    (hcondition : Enacts source turns constants condition p [] fun v => [v])
    (hback : (body ++ op .pop span ++ condition).length + jumpWidth + 1 + 0 + jumpWidth < 65536) :
    Enacts source turns constants
      (body ++ op .pop span ++ condition ++
        tail [] ((body ++ op .pop span ++ condition).length + jumpWidth + 1 + 0 + jumpWidth) span)
      (do
        let _ ← q
        Plan.move span
        Plan.looping p (do
          Plan.move span
          let _ ← q
          Plan.move span) span turns) [] fun v => [v] := by
  intro env chunk offset stack hsource hconstants hhas
  obtain ⟨hstart, hhas⟩ := Chunk.has_append.1 hhas
  obtain ⟨hhasBody, hcode⟩ := Chunk.has_append.1 hstart
  obtain ⟨hcodeBody, hpop⟩ := Chunk.has_append.1 hhasBody
  have honce {β : Type} {r : Unit → Plan β} {next : β → Frame}
      (hr : Carries env chunk turns ⟨offset + body.length + 1, stack⟩ (r ()) next) :
      Carries env chunk turns ⟨offset, stack⟩ (do
        let _ ← q
        Plan.move span
        r ()) next :=
    (hbody env chunk offset stack hsource hconstants hcodeBody).bind fun v =>
      Carries.mono (Carries.move (step_pop hpop) hr) (Nat.le_succ turns)
  have hplace : offset + (body ++ op .pop span ++ condition).length
      = offset + body.length + 1 + condition.length := by simp [Nat.add_assoc]
  have htested := hcondition env chunk (offset + body.length + 1) stack hsource hconstants
    (hcode.at (by simp [Nat.add_assoc]))
  rw [← hplace] at htested
  have hturn : Carries env chunk turns
      ⟨offset + (body ++ op .pop span ++ condition).length + 4, stack⟩ (do
        Plan.move span
        let _ ← q
        Plan.move span) fun _ => ⟨offset + body.length + 1, stack⟩ := by
    refine Carries.mono (Carries.move (step_back hhas hback ?_)
      (honce (r := .give) .give)) (Nat.le_succ turns)
    simp only [jumpWidth, List.length_nil]
    omega
  refine Carries.congr (honce (r := fun _ => Plan.looping _ _ span turns)
    (loop hhas (by decide) htested hturn)) fun v => ?_
  rw [List.length_append, ← Nat.add_assoc]
  rfl

/-- A conjunction behind its left side: a value that does not hold stays. -/
theorem conjunction {right : Code} {p : Plan Value} {v : Value}
    (hright : Enacts source turns constants right p [] fun v => [v])
    (hskip : 1 + right.length < 65536) :
    Enacts source turns constants
      (op .jumpIfFalse span ++ distanceCode (1 + right.length) ++ op .pop span ++ right)
      (do
        Plan.move span
        if v.truthy then
          Plan.move span
          p
        else return v) [v] fun v => [v] := by
  intro env chunk offset stack hsource hconstants hhas
  obtain ⟨hhas, hcode⟩ := Chunk.has_append.1 hhas
  obtain ⟨htest, hpop⟩ := Chunk.has_append.1 hhas
  refine Carries.mono (Carries.move (step_jumpIfFalse hskip htest) ?_) (Nat.le_succ turns)
  cases v.truthy with
  | true =>
      refine Carries.mono (Carries.move (step_pop (hpop.at rfl)) ?_) (Nat.le_succ turns)
      refine Carries.congr (hright env chunk _ stack hsource hconstants (hcode.at rfl)) fun w => ?_
      simp
      omega
  | false =>
      refine Carries.give_at rfl ?_
      simp
      omega

/-- A disjunction behind its left side: a value that holds stays. -/
theorem disjunction (span : Span) {right : Code} {p : Plan Value} {v : Value}
    (hright : Enacts source turns constants right p [] fun v => [v])
    (hskip : 1 + right.length < 65536) :
    Enacts source turns constants
      (op .jumpIfFalse span ++ distanceCode jumpWidth ++
        (op .jump span ++ distanceCode (1 + right.length)) ++ op .pop span ++ right)
      (do
        Plan.move span
        Plan.move span
        if v.truthy then return v else p) [v] fun v => [v] := by
  intro env chunk offset stack hsource hconstants hhas
  obtain ⟨hhas, hcode⟩ := Chunk.has_append.1 hhas
  obtain ⟨hhas, hpop⟩ := Chunk.has_append.1 hhas
  obtain ⟨htest, hjump⟩ := Chunk.has_append.1 hhas
  refine Carries.mono (Carries.move (step_jumpIfFalse (by decide) htest) ?_) (Nat.le_succ turns)
  cases v.truthy with
  | true =>
      refine Carries.mono (Carries.move (step_jump hskip (hjump.at rfl)) ?_) (Nat.le_succ turns)
      refine Carries.give_at rfl ?_
      simp [jumpWidth]
      omega
  | false =>
      refine Carries.mono (Carries.move (step_pop (hpop.at rfl)) ?_) (Nat.le_succ turns)
      refine Carries.congr (hright env chunk _ stack hsource hconstants (hcode.at rfl)) fun w => ?_
      simp [jumpWidth]
      omega

end Enacts

end BoardScript
