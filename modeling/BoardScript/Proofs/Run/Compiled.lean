/-
The code of a node enacts the plan of the node (`Node.Proper.enacted`): it
leaves the value that the plan comes to on top of the stack and the rest as
it was. So running the chunk of a function or of a script is running its
plan for as many instructions (`FunctionLiteral.run_eq`, `script_run_eq`).

The code finds its constants as they were given out, which numerals need:
of two numbers that share a place only one is there, and it is the other
one because no numeral has a sign.
-/
import BoardScript.Proofs.Code.WellFormed
import BoardScript.Proofs.Program.Lexed
import BoardScript.Proofs.Run.Enact
import BoardScript.Proofs.Value.Unsigned

namespace BoardScript

open Compile BoardScript.Frame

/-- A constant that is read back as it was written: a number has no sign,
and a function is there with its chunk. -/
def Faithful (source : Source) : Constant → Prop
  | .number x => Numeric.Unsigned x
  | .string _ => True
  | .function literal chunk => literal.compile source = .ok chunk

/-- What an assembly makes enacts a plan. -/
def Assembles {α : Type} (source : Source) (turns : Nat) (code : Assembly Code) (p : Plan α)
    (entry : List Value) (exit : α → List Value) : Prop :=
  Yields (Faithful source) code fun final made => Enacts source turns final made p entry exit

/-- The code of a node enacts its plan. -/
def Node.Enacted (place : Place) (turns : Nat) (node : Node) : Prop :=
  ∀ naming, Assembles place.source turns (node.compile place naming) (node.plan place turns naming) []
    fun v => [v]

-- ==================================================================== parts

section

variable {source : Source} {turns : Nat} {span : Span} {v w u : Value}

/-- An instruction that names a text, for each of the values that it can
find on the stack. -/
theorem assembles_named (source : Source) (turns : Nat) {ι α : Type} (op : OpCode) (name : String) (span : Span) (x : ι → Eval α)
    (steady : ∀ i, Steady (x i)) (entry : ι → List Value) (exit : ι → α → List Value)
    (hwidth : op.operandWidth = 1)
    (h : ∀ (i : ι) (env : Env) (chunk : Chunk) (ip : Nat) (stack : List Value) (place : UInt8),
      chunk.constants[place.toNat]? = some (.string name) → chunk.Instruction ip op [place] span →
        perform env chunk span (ip + 1) (entry i ++ stack) op = (do
          let a ← x i
          return .next ⟨ip + 2, exit i a ++ stack⟩)) :
    Yields (Faithful source) (withName op name span) fun final made =>
      ∀ i, Enacts source turns final made (Plan.instr span (x i) (steady i)) (entry i) (exit i) :=
  (yields_withName op name span trivial).mono fun final made ⟨place, hplace, hmade⟩ i => by
    rw [hmade]
    exact .withOperand hwidth fun env chunk ip stack _ hconstants =>
      h i env chunk ip stack place (hconstants ▸ hplace)

theorem assembles_choice (span : Span) {yes no : Assembly Code} {p q : Plan Value}
    (hyes : Assembles source turns yes p [] fun v => [v])
    (hno : Assembles source turns no q [] fun v => [v]) :
    Yields (Faithful source) (choice yes no span) fun final code =>
      ∀ v, Enacts source turns final code (Plan.choice v p q span) [v] fun v => [v] := by
  refine hyes.bind fun yes => (yields_jump _ _ _).bind fun skipYes => hno.bind fun no =>
    (yields_jump _ _ _).bind fun skipNo => .pure ?_
  rintro final ⟨hskipNo, rfl⟩ hno ⟨hskipYes, rfl⟩ hyes v
  exact .choice hyes hno hskipYes hskipNo

/-- What comes behind the condition of a loop. -/
theorem yields_tail (condition turn : Nat) (body : Code) (hturn : turn = body.length) (span : Span) :
    Yields (Faithful source) (loopTail condition turn body span) fun _ code =>
      condition + jumpWidth + 1 + turn + jumpWidth < 65536 ∧ 1 + body.length + jumpWidth < 65536 ∧
        code = Enacts.tail body (condition + jumpWidth + 1 + turn + jumpWidth) span := by
  refine (yields_jump _ _ _).bind fun back => (yields_jump _ _ _).bind fun exit => .pure ?_
  rintro final ⟨hexit, rfl⟩ ⟨hback, rfl⟩
  exact ⟨hback, hturn ▸ hexit, by rw [Enacts.tail, hturn]⟩

end

-- ================================================================ statements

section

variable {place : Place} {turns : Nat} {span : Span} {condition yes no body value owner base index
  left right target : Node} {name : Name}

theorem assembles_statements : (nodes : List Node) → nodes ≠ [] →
    (∀ node ∈ nodes, node.Enacted place turns) →
    Assembles place.source turns (compileStatements place nodes) (planStatements place turns nodes) []
      fun v => [v]
  | [], hne, _ => absurd rfl hne
  | [node], _, h => h node (List.mem_singleton_self node) none
  | node :: next :: rest, _, h => by
      have hrest := assembles_statements (next :: rest) (List.cons_ne_nil _ _) fun n hn =>
        h n (List.mem_cons_of_mem _ hn)
      rw [compileStatements, planStatements]
      refine (h node List.mem_cons_self none).bind fun code => hrest.bind fun more => .pure ?_
      intro final hmore hcode
      exact hcode.dropped hmore

theorem assembles_all : (nodes : List Node) → (∀ node ∈ nodes, node.Enacted place turns) →
    Assembles place.source turns (compileAll place nodes) (planAll place turns nodes) [] List.reverse
  | [], _ => .pure fun _ => .nil List.reverse []
  | node :: rest, h => by
      have hrest := assembles_all rest fun n hn => h n (List.mem_cons_of_mem _ hn)
      rw [compileAll, planAll]
      refine (h node List.mem_cons_self none).bind fun code => hrest.bind fun more => .pure ?_
      intro final hmore hcode
      exact hcode.append fun v => (hmore.above [v]).map fun vs => List.reverse_cons.symm

theorem assembles_properties : (properties : List Property) →
    (∀ property ∈ properties, property.value.Enacted place turns) →
    Assembles place.source turns (compileProperties place properties)
      (planPairs place turns properties) [] fun pairs => (laid pairs).reverse
  | [], _ => .pure fun _ => .nil (fun pairs => (laid pairs).reverse) []
  | .mk name value :: rest, h => by
      have hkey := assembles_named place.source turns .constant name.text name.span
        (fun _ : Unit => pure ()) (fun _ => .pure ()) (fun _ => []) (fun _ _ => [.string name.text])
        rfl fun _ env chunk ip stack byte hc hinstr => perform_text hinstr hc
      have hrest := assembles_properties rest fun p hp => h p (List.mem_cons_of_mem _ hp)
      rw [compileProperties, planPairs]
      refine hkey.bind fun key => (h _ List.mem_cons_self none).bind fun value =>
        hrest.bind fun more => .pure ?_
      intro final hmore hvalue hkey
      rw [List.append_assoc]
      refine (hkey ()).append fun _ => (hvalue.above [_]).append fun v => (hmore.above [_, _]).map ?_
      intro pairs
      simp

theorem enacted_block {statements : List Node} (h : ∀ node ∈ statements, node.Enacted place turns) :
    (Node.block statements span).Enacted place turns := by
  intro naming
  rw [Node.compile, Node.plan]
  split
  · exact .pure fun _ => Enacts.undefined.map fun _ => rfl
  · rename_i hne
    exact assembles_statements statements (by simpa using hne) h

theorem enacted_assign (hvalue : value.Enacted place turns) :
    (Node.assign name value span).Enacted place turns := by
  intro naming
  rw [Node.compile, Node.plan]
  refine (hvalue _).bind fun value => (assembles_named place.source turns .setLocal name.text
    name.span (fun v => assignLocal name.text v name.span) (fun _ => steady_assignLocal _ _ _)
    (fun v => [v]) (fun v _ => [v]) rfl fun _ _ _ _ _ _ hc hinstr =>
      perform_setLocal hinstr hc).bind fun set => .pure ?_
  intro final hset hvalue
  exact hvalue.append fun v => (hset v).map fun _ => rfl

theorem enacted_assignProperty (howner : owner.Enacted place turns)
    (hvalue : value.Enacted place turns) :
    (Node.assignProperty owner name value span).Enacted place turns := by
  intro naming
  rw [Node.compile, Node.plan]
  refine (howner _).bind fun owner => (hvalue _).bind fun value =>
    (assembles_named place.source turns .setProperty name.text name.span
      (fun p : Value × Value => setProperty p.1 name.text p.2 name.span)
      (fun _ => steady_setProperty _ _ _ _)
      (fun p => [p.2, p.1]) (fun p _ => [p.2]) rfl fun _ _ _ _ _ _ hc hinstr =>
        perform_setProperty hinstr hc).bind fun set => .pure ?_
  intro final hset hvalue howner
  rw [List.append_assoc]
  exact howner.append fun o => (hvalue.above [o]).append fun v => (hset (o, v)).map fun _ => rfl

theorem enacted_assignIndex (hbase : base.Enacted place turns) (hindex : index.Enacted place turns)
    (hvalue : value.Enacted place turns) :
    (Node.assignIndex base index value span).Enacted place turns := by
  intro naming
  rw [Node.compile, Node.plan]
  refine (hbase _).bind fun b => (hindex _).bind fun i => (hvalue _).bind fun code => .pure ?_
  intro final hvalue hindex hbase
  rw [List.append_assoc, List.append_assoc]
  refine hbase.append fun b => (hindex.above [b]).append fun i => (hvalue.above [i, b]).append
    fun v => ?_
  have hset : Enacts place.source turns final (op .setIndex value.span)
      (Plan.instr value.span (setIndex b i v value.span) (steady_setIndex _ _ _ _)) [v, i, b]
      fun _ => [v] := .plain rfl fun _ _ _ _ => rfl
  exact hset.map fun _ => rfl

theorem enacted_ifThen (hcondition : condition.Enacted place turns) (hyes : yes.Enacted place turns) :
    (Node.ifThen condition yes span).Enacted place turns := by
  intro naming
  rw [Node.compile, Node.plan]
  have hno : Assembles place.source turns (pure (op .undefined span)) (do
      Plan.move span
      return .undefined) [] fun v => [v] :=
    .pure fun _ => Enacts.undefined.map fun _ => rfl
  refine (hcondition _).bind fun condition => (assembles_choice span (hyes _) hno).bind
    fun choice => .pure ?_
  intro final hchoice hcondition
  exact hcondition.append hchoice

theorem enacted_ifElse (hcondition : condition.Enacted place turns) (hyes : yes.Enacted place turns)
    (hno : no.Enacted place turns) : (Node.ifElse condition yes no span).Enacted place turns := by
  intro naming
  rw [Node.compile, Node.plan]
  refine (hcondition _).bind fun condition => (assembles_choice span (hyes _) (hno _)).bind
    fun choice => .pure ?_
  intro final hchoice hcondition
  exact hcondition.append hchoice

theorem enacted_whileLoop (hcondition : condition.Enacted place turns)
    (hbody : body.Enacted place turns) :
    (Node.whileLoop condition body span).Enacted place turns := by
  intro naming
  rw [Node.compile, Node.plan]
  refine (hcondition _).bind fun c => (hbody _).bind fun b =>
    (yields_tail _ _ (b ++ op .pop span) rfl span).bind fun tail => .pure ?_
  rintro final ⟨hback, hexit, rfl⟩ hbody hcondition
  have hloop := hcondition.whileLoop span (hbody.append fun _ => .pop) hback hexit
  simp only [bind_assoc] at hloop
  exact hloop

theorem enacted_doLoop (hbody : body.Enacted place turns) (hcondition : condition.Enacted place turns) :
    (Node.doLoop body condition span).Enacted place turns := by
  intro naming
  rw [Node.compile, Node.plan]
  refine (hbody _).bind fun b => (hcondition _).bind fun c =>
    (yields_tail _ _ [] rfl span).bind fun tail => .pure ?_
  rintro final ⟨hback, -, rfl⟩ hcondition hbody
  exact hbody.doLoop hcondition hback

theorem enacted_forLoop {init step : Node} (hinit : init.Enacted place turns)
    (hcondition : condition.Enacted place turns) (hstep : step.Enacted place turns)
    (hbody : body.Enacted place turns) :
    (Node.forLoop init condition step body span).Enacted place turns := by
  intro naming
  rw [Node.compile, Node.plan]
  refine (hinit _).bind fun i => (hcondition _).bind fun c => (hbody _).bind fun b =>
    (hstep _).bind fun s => (yields_tail _ _ (b ++ op .pop span ++ s ++ op .pop span) rfl span).bind
      fun tail => .pure ?_
  rintro final ⟨hback, hexit, rfl⟩ hstep hbody hcondition hinit
  have hturn : Enacts place.source turns final (b ++ op .pop span ++ s ++ op .pop span) (do
      let _ ← body.plan place turns none
      Plan.move span
      let _ ← step.plan place turns none
      Plan.move span) [] fun _ => [] := by
    rw [List.append_assoc]
    exact hbody.dropped (hstep.append fun _ => .pop)
  rw [List.append_assoc]
  have hloop := hcondition.whileLoop span hturn hback hexit
  simp only [bind_assoc] at hloop
  exact hinit.dropped hloop

theorem enacted_useBoard : (Node.useBoard name span).Enacted place turns := by
  intro naming
  rw [Node.compile, Node.plan]
  refine (assembles_named place.source turns .useBoard name.text span
    (fun _ : Unit => useSession name.text span) (fun _ => steady_useSession _ _) (fun _ => [])
    (fun _ _ => [.undefined]) rfl fun _ _ _ _ _ _ hc hinstr => perform_useBoard hinstr hc).mono ?_
  intro final made hmade
  exact (hmade ()).map fun _ => rfl

theorem enacted_delete (htarget : target.Enacted place turns) :
    (Node.delete target span).Enacted place turns := by
  intro naming
  rw [Node.compile, Node.plan]
  refine (htarget _).bind fun target => .pure ?_
  intro final htarget
  exact htarget.append fun v => .plain rfl fun _ _ _ _ => rfl

/-- The instruction that gives back what is on top. -/
theorem Enacts.giveBack {source : Source} {constants : List Constant} {v : Value}
    {exit : Value → List Value} :
    Enacts source turns constants (op .giveBack span)
      (.done span (handBack v span) (steady_handBack v span)) [v] exit := by
  intro env chunk offset stack _ _ hhas
  refine Carries.done ?_
  rw [step_eq (Chunk.instruction_of_op rfl hhas)]
  refine bind_congr fun _ => ?_
  show ((do
    let m : Machine ← get
    if m.scopes.isGlobal then fault .unexpectedReturn span else return .done v) : Eval Progress) = _
  rw [handBack, bind_assoc]
  refine bind_congr fun m => ?_
  split <;> rfl

theorem enacted_returnNothing : (Node.returnNothing span).Enacted place turns := by
  intro naming
  rw [Node.compile, Node.plan]
  exact .pure fun _ => Enacts.undefined.append fun _ => .giveBack

theorem enacted_returnValue (hvalue : value.Enacted place turns) :
    (Node.returnValue value span).Enacted place turns := by
  intro naming
  let given : Plan Value := if place.inFunction then value.plan place turns none else do
    Plan.move span
    return .undefined
  have hgiven : Assembles place.source turns (returned place value span) given [] fun v => [v] := by
    simp only [returned, given]
    split
    · exact hvalue none
    · exact .pure fun _ => Enacts.undefined.map fun _ => rfl
  have hplan : (Node.returnValue value span).plan place turns naming
      = given >>= fun v => .done span (handBack v span) (steady_handBack v span) := by
    simp only [Node.plan, given]
    split <;> rfl
  rw [compile_returnValue, hplan]
  refine hgiven.bind fun value => .pure ?_
  intro final hgiven
  exact hgiven.append fun v => .giveBack

-- ============================================================== expressions

theorem enacted_conditional (hcondition : condition.Enacted place turns)
    (hyes : yes.Enacted place turns) (hno : no.Enacted place turns) :
    (Node.conditional condition yes no span).Enacted place turns := by
  intro naming
  rw [Node.compile, Node.plan]
  refine (hcondition _).bind fun condition => (assembles_choice span (hyes _) (hno _)).bind
    fun choice => .pure ?_
  intro final hchoice hcondition
  exact hcondition.append hchoice

theorem enacted_closure {literal : FunctionLiteral} {inFunction : Bool} {source : Source} :
    Assembles source turns
      (closure ⟨source, inFunction⟩ literal (literal.body.compile ⟨source, true⟩ none) span)
      (Plan.closure source literal span) [] fun v => [v] := by
  refine .bind_lift fun chunk hchunk => ?_
  have hcompile : literal.compile source = .ok chunk := hchunk
  refine (yields_function literal chunk span hcompile).bind fun address => .pure ?_
  intro final haddress
  rw [Plan.closure]
  refine .withOperand rfl fun env code ip stack hsource hconstants hinstr => ?_
  rw [hcompile, ← hsource]
  exact perform_closure hinstr (hconstants ▸ haddress)

/-- An object of properties, told as it is or by its place. -/
theorem assembles_object {properties : List Property}
    (h : ∀ property ∈ properties, property.value.Enacted place turns) {α : Type}
    (x : Fields → Eval α) (steady : ∀ fields, Steady (x fields)) (shown : α → Value)
    (hmake : ∀ fields, allocate (·.newObject fields) = (do
      let a ← x fields
      return shown a)) :
    Assembles place.source turns (object (compileProperties place properties) properties.length span)
      (do
        let pairs ← planPairs place turns properties
        Plan.instr span (x (Fields.ofPairs pairs)) (steady _)) [] fun a => [shown a] := by
  refine (yields_count _ _ _).bind fun size => (assembles_properties properties h).bind fun made =>
    .pure ?_
  intro final hmade hsize
  rw [List.append_assoc]
  refine hmade.append_of (planPairs_gives place turns properties) fun pairs hpairs =>
    .withOperand rfl fun env chunk ip stack _ _ hinstr => ?_
  refine (perform_object hinstr (hsize.trans hpairs.symm)).trans ?_
  rw [hmake, bind_assoc]
  rfl

/-- What is called. -/
theorem assembles_resolved {callee : Node} (hcallee : callee.Enacted place turns) :
    Assembles place.source turns (resolved callee (callee.compile place none))
      (Plan.resolved callee (callee.plan place turns none)) [] fun v => [v] := by
  unfold resolved Plan.resolved
  cases callee.name? with
  | some name =>
      exact (assembles_named place.source turns .getCallee name callee.span
        (fun _ : Unit => readCallee name callee.span) (fun _ => steady_readCallee _ _) (fun _ => [])
        (fun _ v => [v]) rfl fun _ _ _ _ _ _ hc hinstr => perform_getCallee hinstr hc).mono
          fun _ _ h => h ()
  | none => exact hcallee none

/-- An instruction that calls what lies below its arguments. -/
theorem Enacts.call {node : Node} {source : Source} {constants : List Constant} (op : OpCode) (args : List UInt8)
    {function : Value} {values : List Value} {attributes : Option ObjectId} (site : CallSite)
    {entry : List Value} (hwidth : args.length = op.operandWidth)
    (h : ∀ (env : Env) (chunk : Chunk) (ip : Nat) (stack : List Value), env.source = source →
      chunk.constants = constants → chunk.Instruction ip op args site.span →
        perform env chunk site.span (ip + 1) (entry ++ stack) op = (do
          let fields ← attributesAt attributes
          let value ← callValue env.call function values fields site
          return .next ⟨ip + 1 + args.length, value :: stack⟩)) :
    Enacts source turns constants (Compile.op op site.span ++ args.map fun byte => (byte, none))
      (.call node function values attributes site .give) entry fun v => [v] := by
  intro env chunk offset stack hsource hconstants hhas
  have hinstr := Chunk.instruction_of_has hwidth hhas
  have hlength : (Compile.op op site.span ++ args.map fun byte => (byte, none)).length
      = 1 + args.length := by simp [Compile.op, Nat.add_comm]
  rw [hlength, ← Nat.add_assoc]
  refine Carries.call ?_
  rw [step_eq hinstr, h env chunk offset stack hsource hconstants hinstr]
  rfl

/-- Arguments above what is called. -/
theorem Enacts.arguments {source : Source} {constants : List Constant} {callee args more : Code}
    {p : Plan Value} {nodes : List Node} {q : Value → List Value → Plan Value}
    (hcallee : Enacts source turns constants callee p [] fun v => [v])
    (hargs : Enacts source turns constants args (planAll place turns nodes) [] List.reverse)
    (hmore : ∀ function values, values.length = nodes.length →
      Enacts source turns constants more (q function values) (values.reverse ++ [function])
        fun v => [v]) :
    Enacts source turns constants (callee ++ (args ++ more)) (do
      let function ← p
      let values ← planAll place turns nodes
      q function values) [] fun v => [v] :=
  hcallee.append fun function => (hargs.above [function]).append_of (planAll_gives place turns nodes)
    fun values hvalues => hmore function values hvalues

theorem enacted_call {callee : Node} {args : List Node} (hcallee : callee.Enacted place turns)
    (hargs : ∀ arg ∈ args, arg.Enacted place turns) :
    (Node.call callee args span).Enacted place turns := by
  intro naming
  rw [Node.compile, Node.plan, call_eq, Plan.calling]
  refine (assembles_resolved hcallee).bind fun calleeCode => (yields_count _ _ _).bind fun argc =>
    (assembles_all args hargs).bind fun argsCode =>
      (yields_string (calleeText callee) span trivial).bind fun text => ?_
  cases naming with
  | none =>
      refine .pure ?_
      intro final htext hargs hargc hcallee
      simp only [List.append_assoc]
      refine hcallee.arguments hargs fun function values hvalues => ?_
      have hcall : Enacts place.source turns final
          (Compile.op .call span ++ [argc, text].map fun byte => (byte, none))
          (.call (.call callee args span) function values none ⟨span, calleeText callee, none, place.source⟩ .give)
          (values.reverse ++ [function]) fun v => [v] := by
        refine .call .call [argc, text] ⟨span, _, none, _⟩ rfl
          fun env chunk ip stack hsource hconstants hinstr => ?_
        rw [List.append_assoc]
        refine (perform_call hinstr (hconstants ▸ htext) (hargc.trans hvalues.symm)).trans ?_
        rw [hsource]
        rfl
      exact hcall
  | some name =>
      refine (yields_string name span trivial).bind fun given => .pure ?_
      intro final hgiven htext hargs hargc hcallee
      simp only [List.append_assoc]
      refine hcallee.arguments hargs fun function values hvalues => ?_
      have hcall : Enacts place.source turns final
          (op .callNamed span ++ [argc, text, given].map fun byte => (byte, none))
          (.call (.call callee args span) function values none ⟨span, calleeText callee, some name, place.source⟩ .give)
          (values.reverse ++ [function]) fun v => [v] := by
        refine .call .callNamed [argc, text, given] ⟨span, _, some name, _⟩ rfl
          fun env chunk ip stack hsource hconstants hinstr => ?_
        rw [List.append_assoc]
        refine (perform_callNamed hinstr (hconstants ▸ htext) (hconstants ▸ hgiven)
          (hargc.trans hvalues.symm)).trans ?_
        rw [hsource]
        rfl
      exact hcall

theorem enacted_callWith {callee : Node} {args : List Node} {attributes : List Property}
    (hcallee : callee.Enacted place turns) (hargs : ∀ arg ∈ args, arg.Enacted place turns)
    (hattributes : ∀ property ∈ attributes, property.value.Enacted place turns) :
    (Node.callWith callee args attributes span).Enacted place turns := by
  intro naming
  rw [Node.compile, Node.plan, call_eq, Plan.calling]
  refine (assembles_resolved hcallee).bind fun calleeCode => (yields_count _ _ _).bind fun argc =>
    (assembles_all args hargs).bind fun argsCode =>
      (yields_string (calleeText callee) span trivial).bind fun text =>
        (assembles_object hattributes placeObject steady_placeObject .object fun _ => rfl).bind
          fun made => .pure ?_
  intro final hmade htext hargs hargc hcallee
  simp only [List.append_assoc]
  refine hcallee.arguments hargs fun function values hvalues => ?_
  have hcall (object : ObjectId) : Enacts place.source turns final
      (op .callWithAttributes span ++ [argc, text].map fun byte => (byte, none))
      (.call (.callWith callee args attributes span) function values (some object) ⟨span, calleeText callee, none, place.source⟩ .give)
      (.object object :: (values.reverse ++ [function])) fun v => [v] := by
    refine .call .callWithAttributes [argc, text] ⟨span, _, none, _⟩ rfl
      fun env chunk ip stack hsource hconstants hinstr => ?_
    rw [List.cons_append, List.append_assoc]
    refine (perform_callWithAttributes hinstr (hconstants ▸ htext)
      (hargc.trans hvalues.symm)).trans ?_
    rw [hsource]
    rfl
  have hmade := (hmade.above (values.reverse ++ [function])).append hcall
  simp only [bind_assoc] at hmade
  exact hmade

theorem enacted_array {items : List Node} (h : ∀ item ∈ items, item.Enacted place turns) :
    (Node.array items span).Enacted place turns := by
  intro naming
  rw [Node.compile, Node.plan]
  refine (yields_count _ _ _).bind fun size => (assembles_all items h).bind fun items => .pure ?_
  intro final hitems hsize
  rw [List.append_assoc]
  exact hitems.append_of (planAll_gives place turns _) fun vs hvs =>
    .withOperand rfl fun env chunk ip stack _ _ hinstr => perform_array hinstr (hsize.trans hvs.symm)

theorem enacted_object {properties : List Property}
    (h : ∀ property ∈ properties, property.value.Enacted place turns) :
    (Node.object properties span).Enacted place turns := by
  intro naming
  rw [Node.compile, Node.plan]
  exact assembles_object h (fun fields => allocate (·.newObject fields)) (fun _ => steady_allocate _) id
    fun _ => rfl

theorem enacted_index (hbase : base.Enacted place turns) (hindex : index.Enacted place turns) :
    (Node.index base index span).Enacted place turns := by
  intro naming
  rw [Node.compile, Node.plan]
  refine (hbase _).bind fun base => (hindex _).bind fun index => .pure ?_
  intro final hindex hbase
  rw [List.append_assoc]
  exact hbase.append fun b => (hindex.above [b]).append fun i => .plain rfl fun _ _ _ _ => rfl

theorem enacted_and (hleft : left.Enacted place turns) (hright : right.Enacted place turns) :
    (Node.binary .and left right span).Enacted place turns := by
  intro naming
  rw [Node.compile, Node.plan]
  refine (hleft _).bind fun left => (hright _).bind fun right => (yields_jump _ _ _).bind
    fun skip => .pure ?_
  rintro final ⟨hskip, rfl⟩ hright hleft
  rw [List.append_assoc, List.append_assoc, ← List.append_assoc (op .jumpIfFalse span ++ _)]
  exact hleft.append fun v => .conjunction hright hskip

theorem enacted_or (hleft : left.Enacted place turns) (hright : right.Enacted place turns) :
    (Node.binary .or left right span).Enacted place turns := by
  intro naming
  rw [Node.compile, Node.plan]
  refine (hleft _).bind fun left => (yields_jump _ _ _).bind fun out => (hright _).bind fun right =>
    (yields_jump _ _ _).bind fun skip => .pure ?_
  rintro final ⟨hskip, rfl⟩ hright ⟨-, rfl⟩ hleft
  have hrest (v : Value) := Enacts.disjunction span (v := v) hright hskip
  simp only [List.append_assoc] at hrest ⊢
  exact hleft.append hrest

theorem enacted_binary {operator : BinaryOperator} (hand : operator ≠ .and) (hor : operator ≠ .or)
    (hleft : left.Enacted place turns) (hright : right.Enacted place turns) :
    (Node.binary operator left right span).Enacted place turns := by
  intro naming
  rw [compile_binary hand hor, plan_binary hand hor]
  refine (hleft _).bind fun left => (hright _).bind fun right => .pure ?_
  intro final hright hleft
  rw [List.append_assoc, List.append_assoc]
  exact hleft.append fun l => (hright.above [l]).append fun r =>
    .withOperand rfl fun _ _ _ _ _ _ hinstr => perform_binary hinstr (by simp)

theorem enacted_unary {operator : UnaryOperator} (htarget : target.Enacted place turns) :
    (Node.unary operator target span).Enacted place turns := by
  intro naming
  cases operator with
  | negate =>
      refine (htarget none).bind fun target => .pure ?_
      intro final htarget
      exact htarget.append fun v => .plain rfl fun _ _ _ _ => rfl
  | not =>
      refine (htarget none).bind fun target => .pure ?_
      intro final htarget
      exact htarget.append fun v => .plain rfl fun _ _ _ _ => rfl

theorem enacted_identifier {name : String} : (Node.identifier name span).Enacted place turns := by
  intro naming
  rw [Node.compile, Node.plan]
  exact (assembles_named place.source turns .getName name span (fun _ : Unit => readName name)
    (fun _ => steady_readName _) (fun _ => []) (fun _ v => [v]) rfl
    fun _ _ _ _ _ _ hc hinstr => perform_getName hinstr hc).mono fun _ _ h => h ()

/-- A numeral is read back as it was written: no other number without a sign
shares its place. -/
theorem enacted_numeral {text : String} {kind : NumeralKind}
    (hunsigned : Numeric.Unsigned (numeralValue text)) :
    (Node.numeral text kind span).Enacted place turns := by
  intro naming
  rw [Node.compile, Node.plan]
  refine (yields_constant (.number (numeralValue text)) span hunsigned).bind fun address => .pure ?_
  rintro final ⟨c, hc, hfine, hshared⟩
  have hsame : c = .number (numeralValue text) := by
    rcases hshared with rfl | hshared
    · rfl
    · cases c with
      | number x => rw [number_of_shares hfine hunsigned hshared]
      | _ => cases hshared
  have hmade : Enacts place.source turns final (op .constant span ++ operand address)
      (Plan.move span) [] fun _ => [.number (numeralValue text)] :=
    .withOperand rfl fun env chunk ip stack _ hconstants hinstr =>
      perform_number hinstr (hconstants ▸ hsame ▸ hc)
  exact hmade.map fun _ => rfl

theorem enacted_string {text : String} : (Node.string text span).Enacted place turns := by
  intro naming
  rw [Node.compile, Node.plan]
  exact (assembles_named place.source turns .constant text span (fun _ : Unit => pure ())
    (fun _ => .pure ()) (fun _ => []) (fun _ _ => [.string text]) rfl
    fun _ _ _ _ _ _ hc hinstr => perform_text hinstr hc).mono fun _ _ h => (h ()).map fun _ => rfl

theorem enacted_boolean {value : Bool} : (Node.boolean value span).Enacted place turns := by
  intro naming
  rw [Node.compile, Node.plan]
  have hmade {constants : List Constant} : Enacts place.source turns constants
      (op (if value then .true else .false) span) (Plan.move span) [] fun _ => [.boolean value] := by
    cases value with
    | true =>
        rw [if_pos rfl]
        exact .plain rfl fun _ _ _ _ => rfl
    | false =>
        rw [if_neg Bool.false_ne_true]
        exact .plain rfl fun _ _ _ _ => rfl
  exact .pure fun final => hmade.map fun _ => rfl

theorem enacted_coordinate {axis : Axis} (htarget : target.Enacted place turns) :
    (Node.coordinate axis target span).Enacted place turns := by
  intro naming
  rw [Node.compile, Node.plan]
  refine (htarget _).bind fun target => .pure ?_
  intro final htarget
  rw [List.append_assoc]
  exact htarget.append fun v => .withOperand rfl fun _ _ _ _ _ _ hinstr =>
    perform_coordinate hinstr (by simp)

theorem enacted_property (howner : owner.Enacted place turns) :
    (Node.property owner name span).Enacted place turns := by
  intro naming
  rw [Node.compile, Node.plan]
  refine (howner _).bind fun owner => (assembles_named place.source turns .getProperty name.text
    name.span (fun o => getProperty o name.text name.span) (fun _ => steady_getProperty _ _ _)
    (fun o => [o]) (fun _ v => [v]) rfl fun _ _ _ _ _ _ hc hinstr =>
      perform_getProperty hinstr hc).bind fun get => .pure ?_
  intro final hget howner
  exact howner.append hget

end

-- ==================================================================== nodes

/-- The code of a node whose numerals are tokens enacts the plan of it. -/
theorem Node.Proper.enacted {node : Node} (h : node.Proper Lexical) (place : Place) (turns : Nat) :
    node.Enacted place turns := by
  induction h with
  | @intro node here parts ih =>
  have named : ∀ properties : List Property, (∀ property ∈ properties,
      property.value ∈ node.children) →
      ∀ property ∈ properties, property.value.Enacted place turns :=
    fun properties hp property hmem => ih _ (hp property hmem)
  cases node with
  | block statements span => exact enacted_block ih
  | assign name value span => exact enacted_assign (ih _ (by simp [Node.children]))
  | assignProperty owner name value span =>
      exact enacted_assignProperty (ih _ (by simp [Node.children])) (ih _ (by simp [Node.children]))
  | assignIndex base index value span =>
      exact enacted_assignIndex (ih _ (by simp [Node.children])) (ih _ (by simp [Node.children]))
        (ih _ (by simp [Node.children]))
  | ifThen condition yes span =>
      exact enacted_ifThen (ih _ (by simp [Node.children])) (ih _ (by simp [Node.children]))
  | ifElse condition yes no span =>
      exact enacted_ifElse (ih _ (by simp [Node.children])) (ih _ (by simp [Node.children]))
        (ih _ (by simp [Node.children]))
  | conditional condition yes no span =>
      exact enacted_conditional (ih _ (by simp [Node.children])) (ih _ (by simp [Node.children]))
        (ih _ (by simp [Node.children]))
  | whileLoop condition body span =>
      exact enacted_whileLoop (ih _ (by simp [Node.children])) (ih _ (by simp [Node.children]))
  | doLoop body condition span =>
      exact enacted_doLoop (ih _ (by simp [Node.children])) (ih _ (by simp [Node.children]))
  | forLoop init condition step body span =>
      exact enacted_forLoop (ih _ (by simp [Node.children])) (ih _ (by simp [Node.children]))
        (ih _ (by simp [Node.children])) (ih _ (by simp [Node.children]))
  | useBoard name span => exact enacted_useBoard
  | delete target span => exact enacted_delete (ih _ (by simp [Node.children]))
  | returnNothing span => exact enacted_returnNothing
  | returnValue value span => exact enacted_returnValue (ih _ (by simp [Node.children]))
  | expression value span => exact fun _ => ih value (by simp [Node.children]) none
  | function params body literal span => exact fun _ => enacted_closure
  | map params body literal span => exact fun _ => enacted_closure
  | call callee args span =>
      exact enacted_call (ih _ (by simp [Node.children])) fun arg harg =>
        ih arg (by simp [Node.children, harg])
  | callWith callee args attributes span =>
      refine enacted_callWith (ih _ (by simp [Node.children]))
        (fun arg harg => ih arg (by simp [Node.children, harg]))
        (named attributes fun property hp => ?_)
      simpa [Node.children] using .inr (.inr ⟨property, hp, rfl⟩)
  | array items span => exact enacted_array fun item hitem => ih item hitem
  | object properties span =>
      refine enacted_object (named properties fun property hp => ?_)
      simpa [Node.children] using ⟨property, hp, rfl⟩
  | index base index span =>
      exact enacted_index (ih _ (by simp [Node.children])) (ih _ (by simp [Node.children]))
  | binary operator left right span =>
      have hleft := ih left (by simp [Node.children])
      have hright := ih right (by simp [Node.children])
      by_cases hand : operator = .and
      · exact hand ▸ enacted_and hleft hright
      · by_cases hor : operator = .or
        · exact hor ▸ enacted_or hleft hright
        · exact enacted_binary hand hor hleft hright
  | unary operator operand span => exact enacted_unary (ih _ (by simp [Node.children]))
  | identifier name span => exact enacted_identifier
  | numeral text kind span =>
      exact enacted_numeral (unsigned_numeral here (by cases kind <;> rfl))
  | string value span => exact enacted_string
  | boolean value span => exact enacted_boolean
  | coordinate axis operand span => exact enacted_coordinate (ih _ (by simp [Node.children]))
  | property object name span => exact enacted_property (ih _ (by simp [Node.children]))

-- =================================================================== chunks

/-- What an assembly from no constants makes enacts the plan. -/
theorem Assembles.made {α : Type} {source : Source} {turns : Nat} {x : Assembly Code} {p : Plan α}
    {entry : List Value} {exit : α → List Value} (h : Assembles source turns x p entry exit)
    {code : Code} {constants : List Constant} (hmade : x.run [] = .ok (code, constants)) :
    Enacts source turns constants code p entry exit :=
  (h [] code constants ⟨Nat.zero_le _, fun _ h => nomatch h⟩ hmade).2.2 constants (List.prefix_refl _)

/-- Runs a plan that an instruction ends for as many instructions as a loop
may take turns. -/
def Plan.runWithin (p : Plan Value) (env : Env) : Eval Value :=
  p.runFor env (fun v _ => pure v) env.fuel

/-- A chunk whose code enacts a plan that an instruction ends. -/
theorem Enacts.run {source : Source} {code : Code} {constants : List Constant} {p : Plan Value}
    {name : String} {env : Env} (h : Enacts source env.fuel constants code p [] fun v => [v])
    (hsource : env.source = source)
    (hends : p.Gives fun _ => False) :
    (Compile.chunk name source code constants).run env = p.runWithin env := by
  rw [Chunk.run, Frame.start]
  refine (h env _ 0 [] hsource rfl (Chunk.has_chunk name source code constants) env.fuel
    (Nat.le_refl _)).trans ?_
  exact Plan.runFor_congr hends _ fun _ h => h.elim

/-- Running the chunk of a function is running its plan. -/
theorem FunctionLiteral.run_eq {source : Source} {literal : FunctionLiteral} {chunk : Chunk}
    (hproper : literal.body.Proper Lexical) (hchunk : literal.compile source = .ok chunk) {env : Env}
    (hsource : env.source = source) :
    chunk.run env = (literal.plan source env.fuel).runWithin env := by
  have hends := literal.plan_gives source env.fuel
  have hbody : Assembles source env.fuel (literal.body.compile ⟨source, true⟩ none)
      (literal.body.plan ⟨source, true⟩ env.fuel none) [] fun v => [v] :=
    hproper.enacted ⟨source, true⟩ env.fuel none
  obtain ⟨-, code, constants, name, hrun, rfl⟩ := exists_of_compile hchunk
  refine Enacts.run ?_ hsource hends
  rw [FunctionLiteral.plan]
  cases literal.isMap with
  | true => exact (hbody.made hrun).append fun v => .giveBack
  | false =>
      rw [if_neg Bool.false_ne_true, List.append_assoc, List.append_assoc]
      exact (hbody.made hrun).append fun v => Enacts.pop.append fun _ =>
        Enacts.undefined.append fun _ => .giveBack

/-- Running the chunk of a script is running its plan. -/
theorem script_run_eq {source : Source} {root : Node} {chunk : Chunk} (hproper : root.Proper Lexical)
    (hchunk : compileScript source root = .ok chunk) {env : Env} (hsource : env.source = source) :
    chunk.run env = (scriptPlan source env.fuel root).runWithin env := by
  have hroot : Assembles source env.fuel (root.compile ⟨source, false⟩ none)
      (root.plan ⟨source, false⟩ env.fuel none) [] fun v => [v] :=
    hproper.enacted ⟨source, false⟩ env.fuel none
  unfold compileScript at hchunk
  cases hrun : (root.compile ⟨source, false⟩ none).run [] with
  | error e =>
      rw [hrun] at hchunk
      cases hchunk
  | ok made =>
      obtain ⟨code, constants⟩ := made
      rw [hrun] at hchunk
      cases hchunk
      refine Enacts.run ((hroot.made hrun).append fun v => ?_) hsource (scriptPlan_gives _ _ _)
      intro env chunk offset stack _ _ hhas
      refine Carries.done ?_
      rw [step_eq (Chunk.instruction_of_op rfl hhas)]
      rfl

end BoardScript
