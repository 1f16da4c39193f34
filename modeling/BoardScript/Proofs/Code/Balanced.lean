/-
The code of a node leaves one value on top of the stack and nothing else
changed (`Node.leads`). An expression can stand above any values; a
statement stands above none, since a return in it gives back all of the
stack.

On the way the constants are such as compiling makes: a function among
them is there with its chunk (`Made`).
-/
import BoardScript.Proofs.Code.Typed
import BoardScript.Proofs.Program.Builds

namespace BoardScript

open Compile

/-- The chunk of a function literal. -/
def FunctionLiteral.compile (source : Source) (literal : FunctionLiteral) :
    Except CompileError Chunk :=
  functionChunk source literal (literal.body.compile ⟨source, true⟩ none)

/-- A literal as the grammar has it: the body of a map is an expression,
that of a function a block. -/
structure FunctionLiteral.Proper (lex : Lexicon) (literal : FunctionLiteral) : Prop where
  body : literal.body.Proper lex
  sort : if literal.isMap then literal.body.isExpression = true else literal.body.isBlock = true

/-- A constant as compiling makes it: a function has a proper literal, and
the chunk is that of the literal. -/
def Made (source : Source) : Constant → Prop
  | .function literal chunk => literal.Proper .anything ∧ literal.compile source = .ok chunk
  | .number _ | .string _ => True

-- ==================================================================== parts

section

variable {Fine : Constant → Prop} {P : List Constant → Code → Prop}

/-- An instruction that names a text. -/
theorem yields_named (hfine : ∀ text, Fine (.string text)) (code : OpCode) (name : String)
    (span : Span) (entry exit : Shape)
    (h : ∀ constants at' next place, Step.Text constants place → at' next = some exit →
      Step.Fits constants at' next code [place] entry) :
    Yields Fine (withName code name span) fun final made => Leads final made entry exit :=
  (yields_withName code name span (hfine name)).mono fun final made ⟨place, hplace, hmade⟩ => by
    rw [hmade]
    exact .withOperand code place span fun at' next => h final at' next place ⟨name, hplace⟩

/-- Code that leaves a value, and code that takes one away again. -/
theorem Leads.dropped {constants : List Constant} {code : Code} {below : Shape}
    (h : Leads constants code below (.any :: below)) (span : Span) :
    Leads constants (code ++ op .pop span) below below :=
  h.append (.plain .pop span fun _ _ => .pop)

theorem Leads.undefined {constants : List Constant} (below : Shape) (span : Span) :
    Leads constants (op .undefined span) below (.any :: below) :=
  .plain .undefined span fun _ _ => .undefined

/-- A choice by the condition on top of the stack. -/
theorem yields_choice {yes no : Assembly Code} {below : Shape} (span : Span)
    (hyes : Yields Fine yes fun final code => Leads final code below (.any :: below))
    (hno : Yields Fine no fun final code => Leads final code below (.any :: below)) :
    Yields Fine (choice yes no span) fun final code =>
      Leads final code (.any :: below) (.any :: below) := by
  refine hyes.bind fun yes => (yields_jump _ _ _).bind fun skipYes => hno.bind fun no =>
    (yields_jump _ _ _).bind fun skipNo => .pure ?_
  rintro final ⟨hskipNo, rfl⟩ hno ⟨hskipYes, rfl⟩ hyes
  exact .choice hyes hno hskipYes hskipNo

/-- What comes behind the condition of a loop. -/
theorem yields_loopTail (condition turn : Code) (below : Shape) (span : Span) :
    Yields Fine (loopTail condition.length turn.length turn span) fun final code =>
      Leads final condition below (.any :: below) → Leads final turn below below →
        Leads final (condition ++ code) below (.any :: below) := by
  refine (yields_jump _ _ _).bind fun back => (yields_jump _ _ _).bind fun exit => .pure ?_
  rintro final ⟨hexit, rfl⟩ ⟨hback, rfl⟩ hcondition hturn
  exact .loop hcondition hturn hback hexit

end

-- ==================================================================== calls

/-- Arguments above what is called. -/
theorem Leads.called {constants : List Constant} {callee args : Code} {below : Shape} {count : Nat}
    (hcallee : Leads constants callee below (.any :: below))
    (hargs : Leads constants args (.any :: below) (Shape.values count (.any :: below))) :
    Leads constants (callee ++ args) below (Shape.values count (.any :: below)) :=
  hcallee.append hargs

/-- The code of what is called; a name is resolved as something to be
called. -/
def Compile.resolved (callee : Node) (calleeCode : Assembly Code) : Assembly Code :=
  match callee.name? with
  | some name => withName .getCallee name callee.span
  | none => calleeCode

theorem call_eq (callee : Node) (calleeCode args : Assembly Code) (argCount : Nat)
    (attributes : Option (Assembly Code)) (naming : Option String) (span : Span) :
    call callee calleeCode args argCount attributes naming span = do
      let calleeCode ← resolved callee calleeCode
      let argc ← count "arguments" argCount span
      let args ← args
      let text ← constant (.string (calleeText callee)) span
      match attributes, naming with
      | some attributes, _ =>
          let attributes ← attributes
          return calleeCode ++ args ++ attributes ++ op .callWithAttributes span ++ operand argc ++
            operand text
      | none, some name =>
          let name ← constant (.string name) span
          return calleeCode ++ args ++ op .callNamed span ++ operand argc ++ operand text ++
            operand name
      | none, none => return calleeCode ++ args ++ op .call span ++ operand argc ++ operand text := by
  unfold call resolved
  cases callee.name? <;> rfl

section

variable {Fine : Constant → Prop}

theorem yields_call (hfine : ∀ text, Fine (.string text)) {callee : Node}
    {calleeCode args : Assembly Code} {argCount : Nat} {attributes : Option (Assembly Code)}
    {below : Shape} (naming : Option String) (span : Span)
    (hcallee : Yields Fine calleeCode fun final code => Leads final code below (.any :: below))
    (hargs : Yields Fine args fun final code =>
      Leads final code (.any :: below) (Shape.values argCount (.any :: below)))
    (hattributes : ∀ made, attributes = some made → Yields Fine made fun final code =>
      Leads final code (Shape.values argCount (.any :: below))
        (.object :: Shape.values argCount (.any :: below))) :
    Yields Fine (call callee calleeCode args argCount attributes naming span) fun final code =>
      Leads final code below (.any :: below) := by
  have hresolved : Yields Fine (resolved callee calleeCode) fun final code =>
      Leads final code below (.any :: below) := by
    unfold resolved
    split
    · exact yields_named hfine .getCallee _ _ _ _ fun _ _ _ _ => .getCallee
    · exact hcallee
  rw [call_eq]
  refine hresolved.bind fun resolved => (yields_count _ _ _).bind fun argc => hargs.bind fun args =>
    (yields_string _ _ (hfine _)).bind fun text => ?_
  cases attributes with
  | some made =>
      refine (hattributes made rfl).bind fun attributes => .pure ?_
      intro final hattributes htext hargs hargc hresolved
      rw [← hargc] at hargs hattributes
      rw [List.append_assoc, List.append_assoc]
      exact ((hresolved.called hargs).append hattributes).append
        (.single .callWithAttributes [argc, text] span fun _ _ => .callWithAttributes ⟨_, htext⟩)
  | none =>
      cases naming with
      | some name =>
          refine (yields_string _ _ (hfine name)).bind fun name => .pure ?_
          intro final hname htext hargs hargc hresolved
          rw [← hargc] at hargs
          rw [List.append_assoc, List.append_assoc, List.append_assoc]
          exact (hresolved.called hargs).append
            (.single .callNamed [argc, text, name] span fun _ _ => .callNamed ⟨_, htext⟩ ⟨_, hname⟩)
      | none =>
          refine .pure ?_
          intro final htext hargs hargc hresolved
          rw [← hargc] at hargs
          rw [List.append_assoc, List.append_assoc]
          exact (hresolved.called hargs).append
            (.single .call [argc, text] span fun _ _ => .call ⟨_, htext⟩)

/-- An object, which is known to be one where that is asked for. -/
theorem yields_object {properties : Assembly Code} {size : Nat} {below : Shape} (span : Span)
    {slot : Slot} (hslot : slot = .any ∨ slot = .object)
    (h : Yields Fine properties fun final code => Leads final code below (Shape.pairs size below)) :
    Yields Fine (object properties size span) fun final code =>
      Leads final code below (slot :: below) := by
  refine (yields_count _ _ _).bind fun count => h.bind fun properties => .pure ?_
  intro final hproperties hcount
  rw [← hcount] at hproperties
  rw [List.append_assoc]
  refine hproperties.append (.single .object [count] span fun _ _ hnext => ?_)
  rcases hslot with rfl | rfl
  · exact .object hnext
  · exact .attributes hnext

end

/-- The instruction that makes a closure. -/
theorem yields_closure {source : Source} {inFunction : Bool} {literal : FunctionLiteral}
    (hproper : literal.Proper .anything) (below : Shape) (span : Span) :
    Yields (Made source)
      (closure ⟨source, inFunction⟩ literal (literal.body.compile ⟨source, true⟩ none) span)
      fun final code => Leads final code below (.any :: below) := by
  refine .bind_lift fun chunk hchunk => ?_
  refine (yields_function literal chunk span ⟨hproper, hchunk⟩).bind fun place => .pure ?_
  intro final hplace
  exact .withOperand .closure place span fun _ _ => .closure literal chunk hplace

-- ==================================================================== nodes

/-- The code of a node leaves one value on top of what was there. -/
def Node.Leaves (place : Place) (node : Node) (below : Shape) : Prop :=
  ∀ naming, Yields (Made place.source) (node.compile place naming) fun final code =>
    Leads final code below (.any :: below)

section

variable {place : Place}

/-- Of statements only the last leaves its value. -/
theorem leads_statements : (nodes : List Node) → nodes ≠ [] →
    (∀ node ∈ nodes, node.Leaves place []) →
    Yields (Made place.source) (compileStatements place nodes) fun final code =>
      Leads final code [] [.any]
  | [], hne, _ => absurd rfl hne
  | [node], _, h => h node (List.mem_singleton_self node) none
  | node :: next :: rest, _, h => by
      have hrest := leads_statements (next :: rest) (List.cons_ne_nil _ _) fun n hn =>
        h n (List.mem_cons_of_mem _ hn)
      rw [compileStatements]
      refine (h node List.mem_cons_self none).bind fun code => hrest.bind fun more => .pure ?_
      intro final hmore hcode
      exact (hcode.dropped next.span).append hmore

/-- Expressions each leave their value. -/
theorem leads_all : (nodes : List Node) → (∀ node ∈ nodes, ∀ below, node.Leaves place below) →
    (below : Shape) → Yields (Made place.source) (compileAll place nodes) fun final code =>
      Leads final code below (Shape.values nodes.length below)
  | [], _, below => .pure fun _ => .nil
  | node :: rest, h, below => by
      have hrest := leads_all rest (fun n hn => h n (List.mem_cons_of_mem _ hn)) (.any :: below)
      rw [compileAll]
      refine (h node List.mem_cons_self below none).bind fun code => hrest.bind fun more => .pure ?_
      intro final hmore hcode
      rw [List.length_cons, Shape.values_succ]
      exact hcode.append hmore

/-- Properties each leave a name and a value. -/
theorem leads_properties : (properties : List Property) →
    (∀ property ∈ properties, ∀ below, property.value.Leaves place below) → (below : Shape) →
    Yields (Made place.source) (compileProperties place properties) fun final code =>
      Leads final code below (Shape.pairs properties.length below)
  | [], _, below => .pure fun _ => .nil
  | .mk name value :: rest, h, below => by
      have hkey : Yields (Made place.source) (withName .constant name.text name.span)
          fun final code => Leads final code below (.name :: below) :=
        yields_named (fun _ => trivial) .constant _ _ _ _ fun _ _ _ _ => .key
      have hrest := leads_properties rest (fun p hp => h p (List.mem_cons_of_mem _ hp))
        (.any :: .name :: below)
      rw [compileProperties]
      refine hkey.bind fun key => (h _ List.mem_cons_self (.name :: below) none).bind fun value =>
        hrest.bind fun more => .pure ?_
      intro final hmore hvalue hkey
      rw [List.length_cons, Shape.pairs_succ]
      exact (hkey.append hvalue).append hmore

-- ------------------------------------------------------------- statements

variable {below : Shape} {span : Span} {condition yes no body value owner base index left right
  target : Node} {name : Name}

theorem leaves_block {statements : List Node} (h : ∀ node ∈ statements, node.Leaves place []) :
    (Node.block statements span).Leaves place [] := by
  intro naming
  rw [Node.compile]
  split
  · exact .pure fun _ => .undefined [] span
  · rename_i hne
    exact leads_statements statements (by simpa using hne) h

theorem leaves_assign (hvalue : value.Leaves place below) :
    (Node.assign name value span).Leaves place below := by
  intro naming
  rw [Node.compile]
  refine (hvalue _).bind fun value => (yields_named (fun _ => trivial) .setLocal _ _ (.any :: below)
    (.any :: below) fun _ _ _ _ => .setLocal).bind fun set => .pure ?_
  intro final hset hvalue
  exact hvalue.append hset

theorem leaves_assignProperty (howner : owner.Leaves place below)
    (hvalue : value.Leaves place (.any :: below)) :
    (Node.assignProperty owner name value span).Leaves place below := by
  intro naming
  rw [Node.compile]
  refine (howner _).bind fun owner => (hvalue _).bind fun value => (yields_named (fun _ => trivial)
    .setProperty _ _ (.any :: .any :: below) (.any :: below)
    fun _ _ _ _ => .setProperty).bind fun set => .pure ?_
  intro final hset hvalue howner
  exact (howner.append hvalue).append hset

theorem leaves_assignIndex (hbase : base.Leaves place below)
    (hindex : index.Leaves place (.any :: below))
    (hvalue : value.Leaves place (.any :: .any :: below)) :
    (Node.assignIndex base index value span).Leaves place below := by
  intro naming
  rw [Node.compile]
  refine (hbase _).bind fun base => (hindex _).bind fun index => (hvalue _).bind fun code => .pure ?_
  intro final hvalue hindex hbase
  exact ((hbase.append hindex).append hvalue).append (.plain .setIndex _ fun _ _ => .setIndex)

theorem leaves_ifThen (hcondition : condition.Leaves place below) (hyes : yes.Leaves place below) :
    (Node.ifThen condition yes span).Leaves place below := by
  intro naming
  rw [Node.compile]
  refine (hcondition _).bind fun condition => (yields_choice span (hyes _)
    (.pure fun _ => .undefined below span)).bind fun choice => .pure ?_
  intro final hchoice hcondition
  exact hcondition.append hchoice

theorem leaves_ifElse (hcondition : condition.Leaves place below) (hyes : yes.Leaves place below)
    (hno : no.Leaves place below) : (Node.ifElse condition yes no span).Leaves place below := by
  intro naming
  rw [Node.compile]
  refine (hcondition _).bind fun condition => (yields_choice span (hyes _) (hno _)).bind
    fun choice => .pure ?_
  intro final hchoice hcondition
  exact hcondition.append hchoice

theorem leaves_whileLoop (hcondition : condition.Leaves place below)
    (hbody : body.Leaves place below) : (Node.whileLoop condition body span).Leaves place below := by
  intro naming
  rw [Node.compile]
  refine (hcondition _).bind fun condition => (hbody _).bind fun body =>
    (yields_loopTail condition (body ++ op .pop span) below span).bind fun tail => .pure ?_
  intro final htail hbody hcondition
  exact htail hcondition (hbody.dropped span)

theorem leaves_doLoop (hbody : body.Leaves place below)
    (hcondition : condition.Leaves place below) :
    (Node.doLoop body condition span).Leaves place below := by
  intro naming
  rw [Node.compile]
  refine (hbody _).bind fun body => (hcondition _).bind fun condition =>
    (yields_loopTail (body ++ op .pop span ++ condition) [] below span).bind fun tail => .pure ?_
  intro final htail hcondition hbody
  exact htail ((hbody.dropped span).append hcondition) .nil

theorem leaves_forLoop {init step : Node} (hinit : init.Leaves place below)
    (hcondition : condition.Leaves place below) (hstep : step.Leaves place below)
    (hbody : body.Leaves place below) :
    (Node.forLoop init condition step body span).Leaves place below := by
  intro naming
  rw [Node.compile]
  refine (hinit _).bind fun init => (hcondition _).bind fun condition => (hbody _).bind fun body =>
    (hstep _).bind fun step => (yields_loopTail condition (body ++ op .pop span ++ step ++
      op .pop span) below span).bind fun tail => .pure ?_
  intro final htail hstep hbody hcondition hinit
  rw [List.append_assoc]
  exact (hinit.dropped span).append
    (htail hcondition (((hbody.dropped span).append hstep).dropped span))

theorem leaves_useBoard : (Node.useBoard name span).Leaves place below := fun _ =>
  yields_named (fun _ => trivial) .useBoard name.text span _ _ fun _ _ _ _ => .useBoard

theorem leaves_delete (htarget : target.Leaves place below) :
    (Node.delete target span).Leaves place below := by
  intro naming
  rw [Node.compile]
  refine (htarget _).bind fun target => .pure ?_
  intro final htarget
  exact htarget.append (.plain .delete span fun _ _ => .delete)

theorem leaves_returnNothing : (Node.returnNothing span).Leaves place [] := fun _ =>
  .pure fun _ => (Leads.undefined [] span).append (.plain .giveBack span fun _ _ _ => .giveBack)

theorem leaves_returnValue (hvalue : value.Leaves place []) :
    (Node.returnValue value span).Leaves place [] := by
  intro naming
  have hgiven : Yields (Made place.source) (returned place value span) fun final code =>
      Leads final code [] [.any] := by
    unfold returned
    split
    · exact hvalue none
    · exact .pure fun _ => .undefined [] span
  rw [compile_returnValue]
  refine hgiven.bind fun value => .pure ?_
  intro final hgiven
  exact hgiven.append (.plain .giveBack span fun _ _ _ => .giveBack)

-- ------------------------------------------------------------- expressions

theorem leaves_conditional (hcondition : condition.Leaves place below)
    (hyes : yes.Leaves place below) (hno : no.Leaves place below) :
    (Node.conditional condition yes no span).Leaves place below := by
  intro naming
  rw [Node.compile]
  refine (hcondition _).bind fun condition => (yields_choice span (hyes _) (hno _)).bind
    fun choice => .pure ?_
  intro final hchoice hcondition
  exact hcondition.append hchoice

theorem leaves_call {callee : Node} {args : List Node} (hcallee : callee.Leaves place below)
    (hargs : ∀ arg ∈ args, ∀ below, arg.Leaves place below) :
    (Node.call callee args span).Leaves place below := fun naming =>
  yields_call (fun _ => trivial) naming span (hcallee none) (leads_all args hargs _)
    fun _ h => by cases h

theorem leaves_callWith {callee : Node} {args : List Node} {attributes : List Property}
    (hcallee : callee.Leaves place below) (hargs : ∀ arg ∈ args, ∀ below, arg.Leaves place below)
    (hattributes : ∀ property ∈ attributes, ∀ below, property.value.Leaves place below) :
    (Node.callWith callee args attributes span).Leaves place below := by
  intro naming
  refine yields_call (fun _ => trivial) naming span (hcallee none) (leads_all args hargs _) ?_
  intro made hmade
  obtain rfl := Option.some.inj hmade
  exact yields_object span (.inr rfl) (leads_properties attributes hattributes _)

theorem leaves_array {items : List Node} (h : ∀ item ∈ items, ∀ below, item.Leaves place below) :
    (Node.array items span).Leaves place below := by
  intro naming
  rw [Node.compile]
  refine (yields_count _ _ _).bind fun size => (leads_all items h below).bind fun items => .pure ?_
  intro final hitems hsize
  rw [← hsize] at hitems
  rw [List.append_assoc]
  exact hitems.append (.withOperand .array size span fun _ _ => .array)

theorem leaves_object {properties : List Property}
    (h : ∀ property ∈ properties, ∀ below, property.value.Leaves place below) :
    (Node.object properties span).Leaves place below := fun _ =>
  yields_object span (.inl rfl) (leads_properties properties h _)

theorem leaves_index (hbase : base.Leaves place below)
    (hindex : index.Leaves place (.any :: below)) :
    (Node.index base index span).Leaves place below := by
  intro naming
  rw [Node.compile]
  refine (hbase _).bind fun base => (hindex _).bind fun index => .pure ?_
  intro final hindex hbase
  exact (hbase.append hindex).append (.plain .getIndex span fun _ _ => .getIndex)

theorem leaves_and (hleft : left.Leaves place below) (hright : right.Leaves place below) :
    (Node.binary .and left right span).Leaves place below := by
  intro naming
  rw [Node.compile]
  refine (hleft _).bind fun left => (hright _).bind fun right => (yields_jump _ _ _).bind
    fun skip => .pure ?_
  rintro final ⟨hskip, rfl⟩ hright hleft
  rw [List.append_assoc, List.append_assoc, ← List.append_assoc (op .jumpIfFalse span ++ _)]
  exact hleft.append (hright.conjunction hskip)

theorem leaves_or (hleft : left.Leaves place below) (hright : right.Leaves place below) :
    (Node.binary .or left right span).Leaves place below := by
  intro naming
  rw [Node.compile]
  refine (hleft _).bind fun left => (yields_jump _ _ _).bind fun out => (hright _).bind fun right =>
    (yields_jump _ _ _).bind fun skip => .pure ?_
  rintro final ⟨hskip, rfl⟩ hright ⟨-, rfl⟩ hleft
  have hrest := hright.disjunction span hskip
  simp only [List.append_assoc] at hrest ⊢
  exact hleft.append hrest

theorem leaves_binary {operator : BinaryOperator} (hand : operator ≠ .and) (hor : operator ≠ .or)
    (hleft : left.Leaves place below) (hright : right.Leaves place (.any :: below)) :
    (Node.binary operator left right span).Leaves place below := by
  intro naming
  rw [compile_binary hand hor]
  refine (hleft _).bind fun left => (hright _).bind fun right => .pure ?_
  intro final hright hleft
  rw [List.append_assoc]
  exact (hleft.append hright).append
    (.withOperand .binary operator.byte span fun _ _ => .binary operator (by simp))

theorem leaves_unary {operator : UnaryOperator} (htarget : target.Leaves place below) :
    (Node.unary operator target span).Leaves place below := by
  intro naming
  cases operator with
  | negate =>
      refine (htarget none).bind fun target => .pure ?_
      intro final htarget
      exact htarget.append (.plain .negate span fun _ _ => .negate)
  | not =>
      refine (htarget none).bind fun target => .pure ?_
      intro final htarget
      exact htarget.append (.plain .not span fun _ _ => .not)

theorem leaves_numeral {text : String} {kind : NumeralKind} :
    (Node.numeral text kind span).Leaves place below := by
  intro naming
  refine (yields_constant (.number (numeralValue text)) span trivial).bind fun address => .pure ?_
  rintro final ⟨c, hc, -, hshared⟩
  have hnumber : ∃ x, c = .number x := by
    rcases hshared with rfl | hshared
    · exact ⟨_, rfl⟩
    · cases c with
      | number x => exact ⟨x, rfl⟩
      | _ => cases hshared
  obtain ⟨x, rfl⟩ := hnumber
  exact .withOperand .constant address span fun _ _ => .number x hc

theorem leaves_coordinate {axis : Axis} (htarget : target.Leaves place below) :
    (Node.coordinate axis target span).Leaves place below := by
  intro naming
  rw [Node.compile]
  refine (htarget _).bind fun target => .pure ?_
  intro final htarget
  rw [List.append_assoc]
  exact htarget.append
    (.withOperand .coordinate axis.byte span fun _ _ => .coordinate axis (by simp))

theorem leaves_property (howner : owner.Leaves place below) :
    (Node.property owner name span).Leaves place below := by
  intro naming
  rw [Node.compile]
  refine (howner _).bind fun owner => (yields_named (fun _ => trivial) .getProperty _ _
    (.any :: below) (.any :: below) fun _ _ _ _ => .getProperty).bind fun get => .pure ?_
  intro final hget howner
  exact howner.append hget

end

/-- The code of a proper node leaves one value on top. Below a statement
there is nothing. -/
theorem Node.Proper.leaves {place : Place} {node : Node} (h : node.Proper .anything) :
    ∀ below, (node.isStatement = true → below = []) → node.Leaves place below := by
  induction h with
  | @intro node here parts ih =>
  -- a part that is an expression can stand above anything, and any part
  -- above nothing
  have operand : ∀ child ∈ node.children, child.isExpression = true → ∀ below,
      child.Leaves place below := fun child hc he below => ih child hc below fun hs => by
    rw [Node.isExpression, hs] at he
    cases he
  have alone : ∀ child ∈ node.children, child.Leaves place [] := fun child hc =>
    ih child hc [] fun _ => rfl
  have named : ∀ properties : List Property, (∀ property ∈ properties,
      property.value ∈ node.children ∧ property.value.isExpression = true) →
      ∀ property ∈ properties, ∀ below, property.value.Leaves place below :=
    fun properties hp property hmem => operand _ (hp property hmem).1 (hp property hmem).2
  clear ih
  intro below hbelow
  cases node with
  | block statements span => obtain rfl := hbelow rfl; exact leaves_block alone
  | assign name value span => exact leaves_assign (operand _ (by simp [Node.children]) here.2 _)
  | assignProperty owner name value span =>
      exact leaves_assignProperty (operand _ (by simp [Node.children]) here.1 _)
        (operand _ (by simp [Node.children]) here.2.2 _)
  | assignIndex base index value span =>
      exact leaves_assignIndex (operand _ (by simp [Node.children]) here.1 _)
        (operand _ (by simp [Node.children]) here.2.1 _)
        (operand _ (by simp [Node.children]) here.2.2 _)
  | ifThen condition yes span =>
      obtain rfl := hbelow rfl
      exact leaves_ifThen (alone _ (by simp [Node.children])) (alone _ (by simp [Node.children]))
  | ifElse condition yes no span =>
      obtain rfl := hbelow rfl
      exact leaves_ifElse (alone _ (by simp [Node.children])) (alone _ (by simp [Node.children]))
        (alone _ (by simp [Node.children]))
  | conditional condition yes no span =>
      exact leaves_conditional (operand _ (by simp [Node.children]) here.1 _)
        (operand _ (by simp [Node.children]) here.2.1 _)
        (operand _ (by simp [Node.children]) here.2.2 _)
  | whileLoop condition body span =>
      obtain rfl := hbelow rfl
      exact leaves_whileLoop (alone _ (by simp [Node.children])) (alone _ (by simp [Node.children]))
  | doLoop body condition span =>
      obtain rfl := hbelow rfl
      exact leaves_doLoop (alone _ (by simp [Node.children])) (alone _ (by simp [Node.children]))
  | forLoop init condition step body span =>
      obtain rfl := hbelow rfl
      exact leaves_forLoop (alone _ (by simp [Node.children])) (alone _ (by simp [Node.children]))
        (alone _ (by simp [Node.children])) (alone _ (by simp [Node.children]))
  | useBoard name span => exact leaves_useBoard
  | delete target span => exact leaves_delete (operand _ (by simp [Node.children]) here _)
  | returnNothing span => obtain rfl := hbelow rfl; exact leaves_returnNothing
  | returnValue value span =>
      obtain rfl := hbelow rfl
      exact leaves_returnValue (alone _ (by simp [Node.children]))
  | expression value span =>
      exact fun _ => operand value (by simp [Node.children]) here below none
  | function params body literal span =>
      have hproper : FunctionLiteral.Proper .anything ⟨false, params, body, literal⟩ :=
        ⟨parts body (by simp [Node.children]), here.2⟩
      exact fun _ => yields_closure hproper below span
  | map params body literal span =>
      have hproper : FunctionLiteral.Proper .anything ⟨true, params, body, literal⟩ :=
        ⟨parts body (by simp [Node.children]), here.2⟩
      exact fun _ => yields_closure hproper below span
  | call callee args span =>
      exact leaves_call (operand _ (by simp [Node.children]) here.1 _)
        fun arg harg => operand arg (by simp [Node.children, harg]) (here.2 arg harg)
  | callWith callee args attributes span =>
      refine leaves_callWith (operand _ (by simp [Node.children]) here.1 _)
        (fun arg harg => operand arg (by simp [Node.children, harg]) (here.2.1 arg harg))
        (named attributes fun property hp => ⟨?_, (here.2.2 property hp).2⟩)
      simpa [Node.children] using .inr (.inr ⟨property, hp, rfl⟩)
  | array items span => exact leaves_array fun item hitem => operand item hitem (here item hitem)
  | object properties span =>
      refine leaves_object (named properties fun property hp => ⟨?_, (here property hp).2⟩)
      simpa [Node.children] using ⟨property, hp, rfl⟩
  | index base index span =>
      exact leaves_index (operand _ (by simp [Node.children]) here.1 _)
        (operand _ (by simp [Node.children]) here.2 _)
  | binary operator left right span =>
      have hleft := operand left (by simp [Node.children]) here.1
      have hright := operand right (by simp [Node.children]) here.2
      by_cases hand : operator = .and
      · exact hand ▸ leaves_and (hleft _) (hright _)
      · by_cases hor : operator = .or
        · exact hor ▸ leaves_or (hleft _) (hright _)
        · exact leaves_binary hand hor (hleft _) (hright _)
  | unary operator target span => exact leaves_unary (operand _ (by simp [Node.children]) here _)
  | identifier name span =>
      exact fun _ => yields_named (fun _ => trivial) .getName name span _ _ fun _ _ _ _ => .getName
  | numeral text kind span => exact leaves_numeral
  | string value span =>
      exact fun _ => yields_named (fun _ => trivial) .constant value span _ _ fun _ _ _ _ => .text
  | boolean value span =>
      cases value with
      | false => exact fun _ => .pure fun _ => .plain .false span fun _ _ => .no
      | true => exact fun _ => .pure fun _ => .plain .true span fun _ _ => .yes
  | coordinate axis target span =>
      exact leaves_coordinate (operand _ (by simp [Node.children]) here _)
  | property owner name span =>
      exact leaves_property (operand _ (by simp [Node.children]) here.1 _)

end BoardScript
