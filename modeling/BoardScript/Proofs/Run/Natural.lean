/-
What evaluation is made of does not depend on what a recoding changes.
Everything but the clock, the making of closures and the calling of them
does on a recoded machine what it does on the machine itself, recoded
(`Natural`).
-/
import BoardScript.Proofs.Value.Operators

namespace BoardScript

variable {g : Recoding}

/-- One action does on a recoded machine what the other does on the machine
itself. -/
def Natural (g : Recoding) {α : Type} [Recodable α] (x' x : Eval α) : Prop :=
  ∀ m, x' (recode g m) = recode g (x m)

namespace Natural

variable {α β : Type} [Recodable α] [Recodable β]

theorem pure (a : α) : Natural g (Pure.pure (recode g a) : Eval α) (Pure.pure a) := fun _ => rfl

theorem bind {x' x : Eval α} {k' k : α → Eval β} (hx : Natural g x' x)
    (hk : ∀ a, Natural g (k' (recode g a)) (k a)) : Natural g (x' >>= k') (x >>= k) := by
  intro m
  simp only [Bind.bind, EStateM.bind, hx m]
  cases x m with
  | error e m => rfl
  | ok a m => exact hk a m

/-- An action that begins by looking at the machine. -/
theorem get {k' k : Machine → Eval β}
    (hk : ∀ m, k' (recode g m) (recode g m) = recode g (k m m)) :
    Natural g (MonadState.get >>= k') (MonadState.get >>= k) :=
  fun m => hk m

end Natural

@[simp] theorem heap_recode (m : Machine) : (recode g m).heap = recode g m.heap := rfl
@[simp] theorem scopes_recode (m : Machine) : (recode g m).scopes = recode g m.scopes := rfl
@[simp] theorem hosts_recode (m : Machine) : (recode g m).host = m.host := rfl
@[simp] theorem session_recode (m : Machine) : (recode g m).session = m.session := rfl
@[simp] theorem builtins_recode (m : Machine) : (recode g m).builtins = m.builtins := rfl
@[simp] theorem creators_recode (m : Machine) : (recode g m).creators = m.creators := rfl
@[simp] theorem cancelled_recode (m : Machine) : (recode g m).cancelled = m.cancelled := rfl
@[simp] theorem warnOnShadowing_recode (m : Machine) :
    (recode g m).options.warnOnShadowing = m.options.warnOnShadowing := rfl
@[simp] theorem isPredefined_recode (m : Machine) (name : String) :
    (recode g m).isPredefined name = m.isPredefined name := rfl
@[simp] theorem isGlobal_recode (s : Scopes) : (recode g s).isGlobal = s.isGlobal := rfl
@[simp] theorem current_recode (s : Scopes) : (recode g s).current = s.current := rfl

-- =========================================================== small actions

theorem natural_modify {f' f : Machine → Machine} (hf : ∀ m, f' (recode g m) = recode g (f m)) :
    Natural g (modify f' : Eval PUnit) (modify f) :=
  fun m => congrArg (EStateM.Result.ok ()) (hf m)

theorem natural_fault {α : Type} [Recodable α] (f : Fault) (span : Span) :
    Natural g (fault f (g.span span) : Eval α) (fault f span) := fun _ => rfl

theorem natural_warn (warning : Warning) :
    Natural g (warn (recode g warning)) (warn warning) :=
  natural_modify fun m => by simp [recode]

theorem natural_writeLine (line : String) (span : Span) :
    Natural g (writeLine line (g.span span)) (writeLine line span) := by
  intro m
  unfold writeLine
  rw [show (recode g m).outputBroken = m.outputBroken from rfl]
  split <;> rfl

/-- Where the clock is left alone, asking whether to stop is natural too. -/
theorem natural_checkCancelled (hg : ∀ ticks, g.ticks ticks = ticks) (span : Span) :
    Natural g (checkCancelled (g.span span)) (checkCancelled span) := by
  intro m
  have hticks : (recode g m).ticks = m.ticks := hg m.ticks
  unfold checkCancelled
  rw [hticks, cancelled_recode]
  rcases m.ticks with _ | _ | left
  · cases m.cancelled <;> rfl
  · simp [recode, hg]
  · cases m.cancelled <;> simp [recode, hg]

theorem natural_textOf (v : Value) : Natural g (textOf (recode g v)) (textOf v) := by
  refine Natural.get fun m => ?_
  rw [heap_recode, Heap.text_recode]
  rfl

theorem natural_allocate {make' make : Heap → Value × Heap}
    (h : ∀ heap, make' (recode g heap) = recode g (make heap)) :
    Natural g (allocate make') (allocate make) := by
  intro m
  simp only [allocate, heap_recode, h]
  rfl

theorem natural_updateHeap {change' change : Heap → Heap}
    (h : ∀ heap, change' (recode g heap) = recode g (change heap)) :
    Natural g (updateHeap change') (updateHeap change) :=
  natural_modify fun m => congrArg (fun heap => { recode g m with heap }) (h m.heap)

theorem natural_changeHeap {change' change : Heap → Except HostError Heap}
    (h : ∀ heap, change' (recode g heap) = recode g (change heap)) (refusal : HostError → Fault)
    (span : Span) :
    Natural g (changeHeap change' refusal (g.span span)) (changeHeap change refusal span) := by
  intro m
  simp only [changeHeap, heap_recode, h]
  cases change m.heap <;> rfl

theorem natural_askHost {ask' ask : Heap → Except HostError (Value × Heap)}
    (h : ∀ heap, ask' (recode g heap) = recode g (ask heap)) (refusal : HostError → Fault)
    (span : Span) :
    Natural g (askHost ask' refusal (g.span span)) (askHost ask refusal span) := by
  intro m
  simp only [askHost, heap_recode, h]
  cases ask m.heap <;> rfl

theorem natural_binaryOperation (operator : BinaryOperator) (left right : Value) (span : Span) :
    Natural g (binaryOperation operator (recode g left) (recode g right) (g.span span))
      (binaryOperation operator left right span) := by
  intro m
  simp only [binaryOperation, heap_recode, StateT.run, Operators.binary_carried operator left right
    m.heap]
  cases Operators.binary operator left right m.heap <;> rfl

theorem natural_unaryOperation (operator : UnaryOperator) (operand : Value) (span : Span) :
    Natural g (unaryOperation operator (recode g operand) (g.span span))
      (unaryOperation operator operand span) := by
  intro m
  simp only [unaryOperation, heap_recode, StateT.run, Operators.unary_carried operator operand
    m.heap]
  cases Operators.unary operator operand m.heap <;> rfl

-- ============================================================== properties

theorem natural_getProperty (owner : Value) (name : String) (span : Span) :
    Natural g (getProperty (recode g owner) name (g.span span)) (getProperty owner name span) := by
  refine Natural.get fun m => ?_
  simp only [heap_recode]
  cases owner with
  | host ref =>
      simp only [recode_host, Heap.subObject_recode, Heap.methodAlias_recode, Heap.attribute?_recode]
      cases hsub : m.heap.subObject ref name with
      | some value =>
          have : recode g value = value := by
            unfold Heap.subObject at hsub
            split at hsub
            · obtain ⟨ref, -, rfl⟩ := Option.map_eq_some_iff.1 hsub
              rfl
            · cases hsub
          exact congrArg (EStateM.Result.ok · _) this.symm
      | none =>
          cases m.heap.methodAlias ref name with
          | some method => rfl
          | none => cases m.heap.attribute? ref (lowercase name) <;> rfl
  | object place =>
      simp only [recode_object, Heap.object_recode, Fields.get?_recode]
      cases (m.heap.object place).get? name <;> rfl
  | array place =>
      simp only [recode_array, Heap.array_recode, size_recode]
      split <;> rfl
  | string text =>
      simp only [recode_string]
      split <;> rfl
  | _ => rfl

theorem natural_setProperty (owner : Value) (name : String) (value : Value) (span : Span) :
    Natural g (setProperty (recode g owner) name (recode g value) (g.span span))
      (setProperty owner name value span) := by
  cases owner with
  | host ref =>
      simp only [recode_host, setProperty]
      split
      · exact natural_fault _ _
      · exact natural_changeHeap (fun h => Heap.setProperty_recode h ref _ value) _ _
  | object place =>
      simp only [recode_object, setProperty]
      exact natural_updateHeap fun h => Heap.setField_recode h place name value
  | array place => simp only [recode_array, setProperty]; split <;> exact natural_fault _ _
  | string text => simp only [recode_string, setProperty]; split <;> exact natural_fault _ _
  | _ => exact natural_fault _ _

theorem natural_getIndex (base index : Value) :
    Natural g (getIndex (recode g base) (recode g index)) (getIndex base index) := by
  refine Natural.get fun m => ?_
  simp only [heap_recode, Value.place?_recode]
  cases base with
  | array place =>
      simp only [recode_array, Heap.array_recode, array_getElem?_recode]
      cases Operators.place? index with
      | none => rfl
      | some i => cases hitem : (m.heap.array place)[i]? <;> simp [hitem] <;> rfl
  | string text =>
      cases Operators.place? index with
      | none => rfl
      | some i => cases hitem : text.toList[i]? <;> simp [hitem] <;> rfl
  | host ref =>
      simp only [recode_host]
      cases Operators.place? index with
      | none => rfl
      | some i => cases hitem : m.heap.itemOf ref i <;> simp [hitem] <;> rfl
  | object place =>
      simp only [recode_object, Heap.object_recode, Heap.text_recode, Fields.get?_recode]
      cases (m.heap.object place).get? (m.heap.text index) <;> rfl
  | _ => rfl

theorem natural_invalidIndex {α : Type} [Recodable α] (base index : Value) (span : Span) :
    Natural g (invalidIndex (recode g base) (recode g index) (g.span span) : Eval α)
      (invalidIndex base index span) := by
  refine Natural.get fun m => ?_
  rw [heap_recode, Heap.debug_recode, Value.type_recode]
  rfl

theorem natural_setIndex (base index value : Value) (span : Span) :
    Natural g (setIndex (recode g base) (recode g index) (recode g value) (g.span span))
      (setIndex base index value span) := by
  have hinvalid := natural_invalidIndex (g := g) (α := Unit) base index span
  unfold setIndex
  rw [Value.place?_recode]
  cases base with
  | array place =>
      cases Operators.place? index with
      | none => exact hinvalid
      | some i =>
          simp only [recode_array]
          split
          · exact natural_updateHeap fun h => Heap.setItem_recode h place i value
          · exact hinvalid
  | host ref =>
      cases Operators.place? index with
      | none => exact hinvalid
      | some i => exact natural_changeHeap (fun h => Heap.setItemOf_recode h ref i value) _ _
  | object place =>
      exact (natural_textOf index).bind fun name =>
        natural_updateHeap fun h => Heap.setField_recode h place name value
  | _ => exact hinvalid

theorem natural_coordinateOf (axis : Axis) (target : Value) (span : Span) :
    Natural g (coordinateOf axis (recode g target) (g.span span)) (coordinateOf axis target span) := by
  refine Natural.get fun m => ?_
  simp only [heap_recode]
  cases target with
  | host ref =>
      simp only [recode_host, Heap.coordinate_recode]
      cases m.heap.coordinate ref axis <;> rfl
  | array place =>
      simp only [recode_array, Heap.array_recode, array_getElem?_recode]
      cases (m.heap.array place)[axis.place]? <;> rfl
  | _ => rfl

-- ================================================== boards and assignment

theorem natural_useSession (name : String) (span : Span) :
    Natural g (useSession name (g.span span)) (useSession name span) := by
  refine (natural_warn (.deprecatedUse span)).bind fun _ => Natural.get fun m => ?_
  simp only [hosts_recode, heap_recode, Host.selectSession_recode]
  cases m.host.selectSession m.heap name <;> rfl

theorem natural_deleteValue (target : Value) (span : Span) :
    Natural g (deleteValue (recode g target) (g.span span)) (deleteValue target span) := by
  refine (natural_warn (.deprecatedDelete span)).bind fun _ => ?_
  cases target with
  | host ref =>
      exact (natural_updateHeap fun h => Heap.remove_recode h ref).bind fun _ =>
        Natural.pure Value.undefined
  | _ => exact Natural.pure Value.undefined

theorem Scope.define_recode (name : String) (value : Value) (s : Scope) :
    (recode g s).define name (recode g value) = recode g (s.define name value) := by
  have hgo : ∀ locals : List (String × Value),
      Scope.define.go name (recode g value) (recode g locals)
        = recode g (Scope.define.go name value locals) := by
    intro locals
    induction locals with
    | nil => rfl
    | cons binding locals ih =>
        obtain ⟨other, old⟩ := binding
        simp only [recode_cons, recode_pair, recode_text, Scope.define.go, ih]
        split <;> rfl
  exact congrArg (Scope.mk s.parent) (hgo s.locals)

theorem Scopes.define_recode (s : Scopes) (name : String) (value : Value) :
    (recode g s).define name (recode g value) = recode g (s.define name value) :=
  congrArg (Scopes.mk · _ _) (modify_recode s.table s.current (Scope.define_recode name value))

theorem natural_assignLocal (name : String) (value : Value) (span : Span) :
    Natural g (assignLocal name (recode g value) (g.span span)) (assignLocal name value span) := by
  refine Natural.get fun m => ?_
  have hdefine : Natural g
      (modify fun m => { m with scopes := m.scopes.define name (recode g value) } : Eval PUnit)
      (modify fun m => { m with scopes := m.scopes.define name value }) :=
    natural_modify fun m => congrArg (fun scopes => { recode g m with scopes })
      (Scopes.define_recode m.scopes name value)
  have hwarned : Natural g
      (warn (.shadowed name (g.span span)) >>= fun _ =>
        modify fun m => { m with scopes := m.scopes.define name (recode g value) })
      (warn (.shadowed name span) >>= fun _ =>
        modify fun m => { m with scopes := m.scopes.define name value }) :=
    (natural_warn (.shadowed name span)).bind fun _ => hdefine
  by_cases hshadow : (m.options.warnOnShadowing && m.isPredefined name) = true
  · have hshadow' : ((recode g m).options.warnOnShadowing && (recode g m).isPredefined name) = true :=
      hshadow
    simp only [hshadow, hshadow', if_true]
    exact hwarned m
  · have hshadow' : ¬((recode g m).options.warnOnShadowing && (recode g m).isPredefined name) = true :=
      hshadow
    simp only [hshadow, hshadow']
    exact hdefine m

-- =================================================================== names

theorem Scopes.lookupFrom_recode (table : Array Scope) (scope : ScopeId) (name : String) :
    lookupFrom (recode g table) scope name = recode g (lookupFrom table scope name) := by
  induction scope using Nat.strongRecOn with
  | ind scope ih =>
      rw [lookupFrom, lookupFrom, array_getElem?_recode]
      cases table[scope]? with
      | none => rfl
      | some s =>
          simp only [recode_some, show (recode g s).locals = recode g s.locals from rfl,
            Fields.lookup_recode, show (recode g s).parent = s.parent from rfl]
          cases s.locals.lookup name with
          | some value => rfl
          | none =>
              cases s.parent with
              | none => rfl
              | some parent =>
                  simp only [recode_none]
                  split
                  · exact ih parent ‹_›
                  · rfl

@[simp] theorem Scopes.lookup_recode (s : Scopes) (name : String) :
    (recode g s).lookup name = recode g (s.lookup name) :=
  lookupFrom_recode s.table s.current name

theorem recode_select (host : Host) (h : Heap) (name : String) :
    recode g (host.select h name) = host.select h name := by
  cases hv : host.select h name with
  | none => rfl
  | some v =>
      obtain ⟨ref, rfl⟩ := Host.exists_of_select hv
      rfl

theorem natural_readName (name : String) : Natural g (readName name) (readName name) := by
  refine Natural.get fun m => ?_
  simp only [scopes_recode, Scopes.lookup_recode, hosts_recode, session_recode, heap_recode,
    Host.select_recode]
  cases m.scopes.lookup name with
  | some value => rfl
  | none =>
      cases namedConstant name with
      | some x => rfl
      | none =>
          simp only [recode_none]
          split
          · simp only [Host.sessionObject]
            cases m.host.boards[m.session]? <;> rfl
          · have := recode_select (g := g) m.host m.heap name
            cases hv : m.host.select m.heap name with
            | none => rfl
            | some v =>
                rw [hv] at this
                exact congrArg (EStateM.Result.ok · _) (Option.some.inj this).symm

theorem natural_predefined (name : String) (span : Span) (m : Machine) (bound : Option Value) :
    Natural g (readCallee.predefined name (g.span span) (recode g m) (recode g bound))
      (readCallee.predefined name span m bound) := by
  intro m'
  unfold readCallee.predefined
  simp only [builtins_recode, hosts_recode, session_recode, creators_recode]
  cases m.builtins.find? (·.name == name) with
  | some builtin => rfl
  | none =>
      cases m.host.has m.session name with
      | true => rfl
      | false =>
          cases MathFunction.ofName? name with
          | some function => rfl
          | none =>
              cases bound with
              | some value =>
                  simp only [recode_some, Value.type_recode]
                  rfl
              | none => rfl

theorem natural_readCallee (name : String) (span : Span) :
    Natural g (readCallee name (g.span span)) (readCallee name span) := by
  refine Natural.get fun m => ?_
  simp only [scopes_recode, Scopes.lookup_recode]
  cases m.scopes.lookup name with
  | none => exact natural_predefined name span m none m
  | some value =>
      simp only [recode_some, Value.isCallable_recode]
      split
      · rfl
      · exact natural_predefined name span m (some value) m

-- =================================================================== calls

theorem recode_floats (xs : List Float) : recode g xs = xs := List.map_id xs

theorem natural_numbers (function : String) (span : Span) (args : List Value) :
    Natural g (numbers function (g.span span) (recode g args)) (numbers function span args) := by
  induction args with
  | nil => exact Natural.pure []
  | cons arg args ih =>
      cases arg with
      | number x => exact ih.bind fun xs => Natural.pure (x :: xs)
      | _ => exact natural_fault _ _

instance : Recodable CallSite where
  recode g site := ⟨g.span site.span, site.callee, site.naming, g.source site.source⟩
  Holds _ _ := False

/-- The attributes that a creator is given. -/
def CallSite.attributes (site : CallSite) (attributes : Option Fields) : Fields :=
  match attributes, site.naming with
  | some attributes, _ => attributes
  | none, some name => [("name", .string name)]
  | none, none => []

theorem attributes_recode (site : CallSite) (attributes : Option Fields) :
    (recode g site).attributes (recode g attributes) = recode g (site.attributes attributes) := by
  cases attributes with
  | some attributes => rfl
  | none =>
      obtain ⟨span, callee, naming, source⟩ := site
      cases naming <;> rfl

theorem natural_invokeCreator (creator : Creator) (parents : List Value)
    (attributes : Option Fields) (site : CallSite) :
    Natural g (invokeCreator creator (recode g parents) (recode g attributes) (recode g site))
      (invokeCreator creator parents attributes site) := by
  refine Natural.get fun m => ?_
  have hinvoke (heap : Heap) :
      m.host.invoke (recode g heap) creator.session creator.name (recode g parents)
          ((recode g site).attributes (recode g attributes))
        = recode g
          (m.host.invoke heap creator.session creator.name parents (site.attributes attributes)) := by
    rw [attributes_recode, Host.invoke_recode]
  refine Natural.bind (natural_askHost hinvoke (.creatorFailed creator.name) site.span)
    (fun made => ?_) m
  cases made with
  | host ref =>
      refine Natural.bind (natural_modify fun m => ?_) fun _ => Natural.pure (Value.host ref)
      have hrecord := g.created_at ref site.source site.span
      simp only [Created.at] at hrecord
      simp [recode, hrecord]
  | _ => exact Natural.pure _

namespace BuiltinCall

instance : Recodable BuiltinCall where
  recode g call := ⟨call.name, recode g call.args, g.span call.span⟩
  Holds call := Holds call.args

variable (call : BuiltinCall)

theorem arg_recode (place : Nat) :
    (recode g call).arg place = recode g (call.arg place) :=
  getD_recode call.args place .undefined rfl

theorem natural_number (place : Nat) :
    Natural g ((recode g call).number place) (call.number place) := by
  unfold number
  rw [arg_recode]
  cases call.arg place with
  | number x => exact Natural.pure x
  | _ => exact natural_fault _ _

theorem natural_point (place : Nat) :
    Natural g ((recode g call).point place) (call.point place) := by
  unfold point
  rw [arg_recode]
  refine Natural.get fun m => ?_
  rw [heap_recode, Heap.pair?_recode, Value.type_recode]
  cases m.heap.pair? (call.arg place) <;> rfl

theorem natural_delegate (method : String) :
    Natural g ((recode g call).delegate method) (call.delegate method) := by
  unfold delegate
  rw [arg_recode]
  cases call.arg 0 with
  | host ref => exact natural_askHost (fun heap => Heap.callMethod_recode heap ref method []) _ _
  | _ => exact natural_fault _ _

theorem natural_angle :
    Natural g (recode g call).angle call.angle :=
  (call.natural_point 0).bind fun _ => (call.natural_point 1).bind fun _ =>
    (call.natural_point 2).bind fun _ => Natural.pure _

theorem natural_numeric (f : Float → Float) :
    Natural g ((recode g call).numeric f) (call.numeric f) :=
  (call.natural_number 0).bind fun x => Natural.pure (Value.number (f x))

theorem natural_perform (action : BuiltinAction) :
    Natural g ((recode g call).perform action) (call.perform action) := by
  cases action with
  | log =>
      refine Natural.get fun m => ?_
      have htexts : (recode g call.args).map (recode g m).heap.text = call.args.map m.heap.text := by
        rw [recode_list, List.map_map]
        exact List.map_congr_left fun v _ => Heap.text_recode m.heap v
      have hline : Natural g
          (writeLine (" ".intercalate ((recode g call.args).map (recode g m).heap.text))
            (g.span call.span) >>= fun _ => pure Value.undefined)
          (writeLine (" ".intercalate (call.args.map m.heap.text)) call.span
            >>= fun _ => pure Value.undefined) := by
        rw [htexts]
        exact (natural_writeLine _ _).bind fun _ => Natural.pure Value.undefined
      exact hline m
  | select =>
      refine Natural.get fun m => ?_
      rw [arg_recode, hosts_recode, heap_recode, Heap.text_recode, Host.select_recode]
      have := recode_select (g := g) m.host m.heap (m.heap.text (call.arg 0))
      cases hv : m.host.select m.heap (m.heap.text (call.arg 0)) with
      | none => rfl
      | some v =>
          rw [hv] at this
          exact congrArg (EStateM.Result.ok · _) (Option.some.inj this).symm
  | remove =>
      simp only [perform, arg_recode]
      cases call.arg 0 with
      | host ref =>
          exact (natural_updateHeap fun h => Heap.remove_recode h ref).bind fun _ =>
            Natural.pure Value.undefined
      | _ => exact Natural.pure Value.undefined
  | ifThen =>
      simp only [perform, arg_recode, Value.truthy_recode]
      split <;> exact Natural.pure _
  | value => exact call.natural_delegate "Value"
  | length => exact call.natural_delegate "L"
  | dist =>
      exact (call.natural_point 0).bind fun _ => (call.natural_point 1).bind fun _ =>
        Natural.pure (Value.number _)
  | rad => exact call.natural_angle.bind fun x => Natural.pure (Value.number x)
  | deg => exact call.natural_angle.bind fun _ => Natural.pure (Value.number _)
  | factorial => exact (call.natural_number 0).bind fun _ => Natural.pure (Value.number _)
  | trunc =>
      simp only [perform, show (recode g call).args.length = call.args.length
        from length_recode _]
      refine (call.natural_number 0).bind fun x => ?_
      split
      · exact (call.natural_number 1).bind fun _ => Natural.pure (Value.number _)
      · exact Natural.pure (Value.number _)
  | logarithm =>
      simp only [perform, show (recode g call).args.length = call.args.length
        from length_recode _]
      refine (call.natural_number 0).bind fun x => ?_
      split
      · exact (call.natural_number 1).bind fun _ => Natural.pure (Value.number _)
      · exact Natural.pure (Value.number _)
  | ln => exact call.natural_numeric Float.log
  | log10 => exact call.natural_numeric Float.log10
  | log2 => exact call.natural_numeric Float.log2
  | cosh => exact call.natural_numeric Float.cosh
  | sinh => exact call.natural_numeric Float.sinh
  | fail =>
      simp only [perform, arg_recode]
      exact (natural_textOf _).bind fun _ => natural_fault _ _
  | cancel => exact fun _ => rfl
  | count =>
      simp only [perform, show (recode g call).args.length = call.args.length
        from length_recode _]
      exact Natural.pure (Value.number _)

end BuiltinCall

theorem natural_builtin (b : Builtin) (args : List Value) (span : Span) :
    Natural g (b.call (recode g args) (g.span span)) (b.call args span) := by
  unfold Builtin.call
  rw [length_recode]
  split
  · exact BuiltinCall.natural_perform ⟨b.name, args, span⟩ b.action
  · exact natural_fault _ _

/-- Calling a value, if closures are called alike. -/
theorem natural_callValue {call' call : Caller} {callee : Value} {args : List Value}
    {attributes : Option Fields} {site : CallSite}
    (hcall : ∀ c, callee = .closure c → attributes = none →
      Natural g (call' (g.closure c) (recode g args) (recode g site)) (call c args site)) :
    Natural g
      (callValue call' (recode g callee) (recode g args) (recode g attributes) (recode g site))
      (callValue call callee args attributes site) := by
  cases callee with
  | creator creator => exact natural_invokeCreator creator args attributes site
  | closure c =>
      cases attributes with
      | some attributes => exact natural_fault _ _
      | none => exact hcall c rfl rfl
  | builtin b =>
      cases attributes with
      | some attributes => exact natural_fault _ _
      | none => exact natural_builtin b args site.span
  | math function =>
      cases attributes with
      | some attributes => exact natural_fault _ _
      | none =>
          refine (natural_numbers _ _ args).bind fun xs => ?_
          rw [recode_floats]
          exact Natural.pure (Value.number _)
  | method receiver name =>
      cases attributes with
      | some attributes => exact natural_fault _ _
      | none =>
          show Natural g
            (askHost (fun heap => heap.callMethod receiver name (recode g args)) .host (g.span site.span))
            (askHost (fun heap => heap.callMethod receiver name args) .host site.span)
          exact natural_askHost (fun heap => Heap.callMethod_recode heap receiver name args) _ _
  | _ => cases attributes <;> exact natural_fault _ _

-- ================================================================ closures

/-- The host objects that a closure made now would depend on. -/
def Machine.dependencies (m : Machine) (literal : FunctionLiteral) : List HostRef :=
  let names := literal.body.namesLookedUp.filter fun name =>
    !(literal.params.map Name.text).contains name
  names.filterMap fun name =>
    match (m.scopes.lookup name).or (m.host.select m.heap name) with
    | some (.host ref) => some ref
    | _ => none

/-- The first node that keeps a literal from becoming a closure. -/
def FunctionLiteral.notFormula (literal : FunctionLiteral) : Option Node :=
  if literal.isMap then literal.body.notFormula else none

/-- What making a closure comes to. -/
theorem makeClosure_eq (literal : FunctionLiteral) (compiled : Option Chunk) (source : Source)
    (m : Machine) :
    makeClosure literal compiled source m =
      match literal.notFormula with
      | some node => .error (.failed (.fault .notFormula node.span)) m
      | none => .ok (.closure ⟨m.nextClosure, literal, m.scopes.current, m.dependencies literal,
          compiled, source⟩) { m with nextClosure := m.nextClosure + 1 } := by
  unfold makeClosure FunctionLiteral.notFormula
  cases literal.isMap with
  | false => rfl
  | true =>
      simp only [if_true]
      cases literal.body.notFormula <;> rfl

@[simp] theorem dependencies_recode (m : Machine) (literal : FunctionLiteral) :
    (recode g m).dependencies literal = m.dependencies literal := by
  unfold Machine.dependencies
  simp only [scopes_recode, Scopes.lookup_recode, hosts_recode, heap_recode, Host.select_recode]
  congr 1
  funext name
  cases m.scopes.lookup name with
  | none => rfl
  | some value => cases value <;> rfl

end BoardScript
