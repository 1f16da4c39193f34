/-
What every action leaves alone. Within one activation the current scope
stays the current one, only its bindings change, scopes are added and
never taken away, a run that has been asked to stop stays so, and the
clock goes on if it goes (`Machine.Later`). A scope keeps its parent, and a
new one has an older parent (`Scopes.Grown`). Actions that are no calls and
read no code end with a value or an ordinary fault (`Steady`).
-/
import BoardScript.Proofs.Run.Natural

namespace BoardScript

-- ================================================================== growing

/-- More scopes than before: those that were there keep their parents, and
the parent of a new one is older than itself. -/
structure Scopes.Grown (before behind : Array Scope) : Prop where
  size : before.size ≤ behind.size
  parents : ∀ scope < before.size,
    (behind[scope]?).map Scope.parent = (before[scope]?).map Scope.parent
  younger : ∀ scope new, before.size ≤ scope → behind[scope]? = some new →
    ∃ parent < scope, new.parent = some parent

namespace Scopes.Grown

theorem refl (table : Array Scope) : Grown table table :=
  ⟨Nat.le_refl _, fun _ _ => rfl, fun scope new hscope hnew => by
    rw [Array.getElem?_eq_none hscope] at hnew
    cases hnew⟩

theorem trans {a b c : Array Scope} (h : Grown a b) (h' : Grown b c) : Grown a c where
  size := Nat.le_trans h.size h'.size
  parents scope hscope :=
    (h'.parents scope (Nat.lt_of_lt_of_le hscope h.size)).trans (h.parents scope hscope)
  younger scope new hscope hnew := by
    by_cases hold : scope < b.size
    · have hparent := h'.parents scope hold
      rw [hnew, Array.getElem?_eq_getElem hold, Option.map_some, Option.map_some,
        Option.some_inj] at hparent
      rw [hparent]
      exact h.younger scope b[scope] hscope (Array.getElem?_eq_getElem hold)
    · exact h'.younger scope new (Nat.le_of_not_lt hold) hnew

/-- One scope more, whose parent is there. -/
theorem push (table : Array Scope) {new : Scope} {parent : ScopeId} (hnew : new.parent = some parent)
    (hparent : parent < table.size) : Grown table (table.push new) where
  size := by
    rw [Array.size_push]
    exact Nat.le_succ _
  parents scope hscope := by
    rw [Array.getElem?_push_lt hscope, Array.getElem?_eq_getElem hscope]
  younger scope found hscope hfound := by
    obtain ⟨hlt, rfl⟩ := Array.getElem?_eq_some_iff.1 hfound
    rw [Array.size_push] at hlt
    obtain rfl : scope = table.size := Nat.le_antisymm (Nat.le_of_lt_succ hlt) hscope
    exact ⟨parent, hparent, by rw [Array.getElem_push_eq, hnew]⟩

/-- Bindings are no parents. -/
theorem modify (table : Array Scope) (scope : ScopeId) {change : Scope → Scope}
    (hchange : ∀ s : Scope, (change s).parent = s.parent) : Grown table (table.modify scope change) where
  size := Nat.le_of_eq Array.size_modify.symm
  parents other _ := by
    rw [Array.getElem?_modify]
    split
    · rw [Option.map_map]
      exact congrFun (congrArg Option.map (funext hchange)) _
    · rfl
  younger other found hother hfound := by
    rw [Array.getElem?_eq_none (by rwa [Array.size_modify])] at hfound
    cases hfound

end Scopes.Grown

-- ==================================================================== later

/-- A machine later in the same activation. -/
structure Machine.Later (m m' : Machine) : Prop where
  cancelled : m.cancelled = true → m'.cancelled = true
  grown : Scopes.Grown m.scopes.table m'.scopes.table
  others : ∀ scope < m.scopes.table.size, scope ≠ m.scopes.current →
    m'.scopes.table[scope]? = m.scopes.table[scope]?
  current : m'.scopes.current = m.scopes.current
  suspended : m'.scopes.suspended = m.scopes.suspended
  callDepth : m'.callDepth = m.callDepth
  running : m'.running = m.running
  options : m'.options = m.options
  ticks : m'.ticks.isSome = m.ticks.isSome

namespace Machine.Later

/-- No scope is taken away. -/
theorem table {m m' : Machine} (h : m.Later m') : m.scopes.table.size ≤ m'.scopes.table.size :=
  h.grown.size

theorem refl (m : Machine) : m.Later m :=
  ⟨id, .refl _, fun _ _ _ => rfl, rfl, rfl, rfl, rfl, rfl, rfl⟩

theorem trans {a b c : Machine} (h : a.Later b) (h' : b.Later c) : a.Later c where
  cancelled := h'.cancelled ∘ h.cancelled
  grown := h.grown.trans h'.grown
  others scope hlt hne :=
    (h'.others scope (Nat.lt_of_lt_of_le hlt h.table) (h.current ▸ hne)).trans
      (h.others scope hlt hne)
  current := h'.current.trans h.current
  suspended := h'.suspended.trans h.suspended
  callDepth := h'.callDepth.trans h.callDepth
  running := h'.running.trans h.running
  options := h'.options.trans h.options
  ticks := h'.ticks.trans h.ticks

/-- A machine with the same scopes, no less cancelled. -/
theorem of_scopes {m m' : Machine} (hs : m'.scopes = m.scopes)
    (hc : m.cancelled = true → m'.cancelled = true) (hd : m'.callDepth = m.callDepth)
    (hr : m'.running = m.running) (ho : m'.options = m.options)
    (ht : m'.ticks.isSome = m.ticks.isSome) : m.Later m' where
  cancelled := hc
  grown := hs ▸ .refl _
  others _ _ _ := by rw [hs]
  current := by rw [hs]
  suspended := by rw [hs]
  callDepth := hd
  running := hr
  options := ho
  ticks := ht

end Machine.Later

/-- Whether a fault is that of one call too many. -/
def Fault.isOverflow : Fault → Bool
  | .stackOverflow _ => true
  | _ => false

section

variable {α β : Type}

/-- The machine that an action leaves behind. -/
def after : EStateM.Result Unwind Machine α → Machine
  | .ok _ m | .error _ m => m

/-- Ends that any action may come to: a value, or a fault other than that
of one call too many. -/
def Ordinary : EStateM.Result Unwind Machine α → Prop
  | .ok _ _ => True
  | .error (.failed (.fault f _)) _ => f.isOverflow = false
  | .error _ _ => False

/-- An action that stays in its activation and calls nothing. -/
def Steady (x : Eval α) : Prop := ∀ m, m.Later (after (x m)) ∧ Ordinary (x m)

namespace Steady

theorem pure (a : α) : Steady (Pure.pure a) := fun m => ⟨.refl m, trivial⟩

theorem bind {x : Eval α} {k : α → Eval β} (hx : Steady x) (hk : ∀ a, Steady (k a)) :
    Steady (x >>= k) := by
  intro m
  have hfirst := hx m
  show m.Later (after (EStateM.bind x k m)) ∧ Ordinary (EStateM.bind x k m)
  unfold EStateM.bind
  cases hr : x m with
  | ok a m' =>
      rw [hr] at hfirst
      exact ⟨hfirst.1.trans (hk a m').1, (hk a m').2⟩
  | error e m' =>
      rw [hr] at hfirst
      refine ⟨hfirst.1, ?_⟩
      rcases e with _ | (_ | _) | _ <;> exact hfirst.2

/-- An action that begins by looking at the machine. -/
theorem get {k : Machine → Eval β} (hk : ∀ m, m.Later (after (k m m)) ∧ Ordinary (k m m)) :
    Steady (MonadState.get >>= k) :=
  fun m => hk m

theorem reading {k : Machine → Eval β} (hk : ∀ m, Steady (k m)) : Steady (MonadState.get >>= k) :=
  fun m => hk m m

end Steady

end

-- =========================================================== small actions

theorem steady_fault {α : Type} (f : Fault) (span : Span) (hf : f.isOverflow = false) :
    Steady (fault f span : Eval α) :=
  fun m => ⟨.refl m, hf⟩

theorem steady_modify {f : Machine → Machine} (hf : ∀ m : Machine, m.Later (f m)) :
    Steady (modify f : Eval PUnit) :=
  fun m => ⟨hf m, trivial⟩

theorem steady_warn (warning : Warning) : Steady (warn warning) :=
  steady_modify fun _ => .of_scopes rfl id rfl rfl rfl rfl

theorem steady_writeLine (line : String) (span : Span) : Steady (writeLine line span) := by
  intro m
  unfold writeLine
  split
  · exact ⟨.refl m, rfl⟩
  · exact ⟨.of_scopes rfl id rfl rfl rfl rfl, trivial⟩

theorem steady_checkCancelled (span : Span) : Steady (checkCancelled span) := by
  intro m
  unfold checkCancelled
  split
  · split
    · exact ⟨.refl m, rfl⟩
    · exact ⟨.refl m, trivial⟩
  · exact ⟨.of_scopes rfl (fun _ => rfl) rfl rfl rfl rfl, rfl⟩
  · rename_i hleft
    split
    · exact ⟨.refl m, rfl⟩
    · exact ⟨.of_scopes rfl id rfl rfl rfl (by rw [hleft]; rfl), trivial⟩

theorem steady_textOf (v : Value) : Steady (textOf v) := .reading fun _ => .pure _

theorem steady_allocate (make : Heap → Value × Heap) : Steady (allocate make) :=
  fun _ => ⟨.of_scopes rfl id rfl rfl rfl rfl, trivial⟩

theorem steady_updateHeap (change : Heap → Heap) : Steady (updateHeap change) :=
  steady_modify fun _ => .of_scopes rfl id rfl rfl rfl rfl

theorem steady_changeHeap (change : Heap → Except HostError Heap) (refusal : HostError → Fault)
    (span : Span) (hr : ∀ cause, (refusal cause).isOverflow = false) :
    Steady (changeHeap change refusal span) := by
  intro m
  unfold changeHeap
  split
  · exact ⟨.of_scopes rfl id rfl rfl rfl rfl, trivial⟩
  · exact ⟨.refl m, hr _⟩

theorem steady_askHost (ask : Heap → Except HostError (Value × Heap)) (refusal : HostError → Fault)
    (span : Span) (hr : ∀ cause, (refusal cause).isOverflow = false) :
    Steady (askHost ask refusal span) := by
  intro m
  unfold askHost
  split
  · exact ⟨.of_scopes rfl id rfl rfl rfl rfl, trivial⟩
  · exact ⟨.refl m, hr _⟩

theorem steady_binaryOperation (operator : BinaryOperator) (left right : Value) (span : Span) :
    Steady (binaryOperation operator left right span) := by
  intro m
  unfold binaryOperation
  split
  · exact ⟨.of_scopes rfl id rfl rfl rfl rfl, trivial⟩
  · exact ⟨.refl m, rfl⟩

theorem steady_unaryOperation (operator : UnaryOperator) (operand : Value) (span : Span) :
    Steady (unaryOperation operator operand span) := by
  intro m
  unfold unaryOperation
  split
  · exact ⟨.of_scopes rfl id rfl rfl rfl rfl, trivial⟩
  · exact ⟨.refl m, rfl⟩

-- ============================================================== properties

theorem steady_getProperty (owner : Value) (name : String) (span : Span) :
    Steady (getProperty owner name span) := by
  refine .reading fun m => ?_
  cases owner with
  | host ref =>
      dsimp only
      split
      · exact .pure _
      · split
        · exact .pure _
        · split
          · exact .pure _
          · exact steady_fault _ _ rfl
  | object place => exact .pure _
  | array place =>
      dsimp only
      split
      · exact .pure _
      · exact steady_fault _ _ rfl
  | string text =>
      dsimp only
      split
      · exact .pure _
      · exact steady_fault _ _ rfl
  | _ => exact steady_fault _ _ rfl

theorem steady_setProperty (owner : Value) (name : String) (value : Value) (span : Span) :
    Steady (setProperty owner name value span) := by
  unfold setProperty
  cases owner with
  | host ref =>
      dsimp only
      split
      · exact steady_fault _ _ rfl
      · exact steady_changeHeap _ _ _ fun _ => rfl
  | object place => exact steady_updateHeap _
  | array place => dsimp only; split <;> exact steady_fault _ _ rfl
  | string text => dsimp only; split <;> exact steady_fault _ _ rfl
  | _ => exact steady_fault _ _ rfl

theorem steady_getIndex (base index : Value) : Steady (getIndex base index) :=
  .reading fun _ => .pure _

theorem steady_invalidIndex {α : Type} (base index : Value) (span : Span) :
    Steady (invalidIndex base index span : Eval α) :=
  .reading fun _ => steady_fault _ _ rfl

theorem steady_setIndex (base index value : Value) (span : Span) :
    Steady (setIndex base index value span) := by
  unfold setIndex
  split
  · split
    · exact steady_updateHeap _
    · exact steady_invalidIndex _ _ _
  · exact steady_changeHeap _ _ _ fun _ => rfl
  · exact (steady_textOf _).bind fun _ => steady_updateHeap _
  · exact steady_invalidIndex _ _ _

theorem steady_coordinateOf (axis : Axis) (target : Value) (span : Span) :
    Steady (coordinateOf axis target span) := by
  refine .reading fun m => ?_
  cases target with
  | host ref => exact .pure _
  | array place => exact .pure _
  | _ => exact steady_fault _ _ rfl

-- ======================================================== names and boards

theorem steady_useSession (name : String) (span : Span) : Steady (useSession name span) := by
  refine (steady_warn _).bind fun _ => .get fun m => ?_
  cases m.host.selectSession m.heap name with
  | some session => exact ⟨.of_scopes rfl id rfl rfl rfl rfl, trivial⟩
  | none => exact ⟨.refl m, rfl⟩

theorem steady_deleteValue (target : Value) (span : Span) : Steady (deleteValue target span) := by
  refine (steady_warn _).bind fun _ => ?_
  cases target with
  | host ref => exact (steady_updateHeap _).bind fun _ => .pure _
  | _ => exact .pure _

theorem later_define (m : Machine) (name : String) (value : Value) :
    m.Later { m with scopes := m.scopes.define name value } :=
  ⟨id, .modify _ _ fun _ => rfl, fun scope _ hne => by
    simp [Scopes.define, Array.getElem?_modify, Ne.symm hne], rfl, rfl, rfl, rfl, rfl, rfl⟩

theorem steady_assignLocal (name : String) (value : Value) (span : Span) :
    Steady (assignLocal name value span) := by
  refine .reading fun m => ?_
  dsimp only
  split
  · exact (steady_warn _).bind fun _ => steady_modify fun m => later_define m name value
  · exact steady_modify fun m => later_define m name value

theorem steady_readName (name : String) : Steady (readName name) := .reading fun _ => .pure _

theorem steady_readCallee (name : String) (span : Span) : Steady (readCallee name span) := by
  have hpredefined (m : Machine) (bound : Option Value) :
      m.Later (after (readCallee.predefined name span m bound m)) ∧
        Ordinary (readCallee.predefined name span m bound m) := by
    unfold readCallee.predefined
    cases m.builtins.find? (·.name == name) with
    | some builtin => exact ⟨.refl m, trivial⟩
    | none =>
        cases m.host.has m.session name with
        | true => exact ⟨.of_scopes rfl id rfl rfl rfl rfl, trivial⟩
        | false =>
            cases MathFunction.ofName? name with
            | some function => exact ⟨.refl m, trivial⟩
            | none => cases bound <;> exact ⟨.refl m, rfl⟩
  refine .get fun m => ?_
  cases m.scopes.lookup name with
  | none => exact hpredefined m none
  | some value =>
      cases hcallable : value.isCallable with
      | true => simp only [hcallable]; exact ⟨.refl m, trivial⟩
      | false => simp only [hcallable]; exact hpredefined m (some value)

theorem steady_makeClosure (literal : FunctionLiteral) (compiled : Option Chunk) (source : Source) :
    Steady (makeClosure literal compiled source) := by
  intro m
  rw [makeClosure_eq]
  split
  · exact ⟨.refl m, rfl⟩
  · exact ⟨.of_scopes rfl id rfl rfl rfl rfl, trivial⟩

-- =================================================================== calls

theorem steady_numbers (function : String) (span : Span) (args : List Value) :
    Steady (numbers function span args) := by
  induction args with
  | nil => exact .pure _
  | cons arg args ih =>
      cases arg with
      | number x => exact ih.bind fun _ => .pure _
      | _ => exact steady_fault _ _ rfl

theorem steady_invokeCreator (creator : Creator) (parents : List Value)
    (attributes : Option Fields) (site : CallSite) :
    Steady (invokeCreator creator parents attributes site) := by
  refine .reading fun m => (steady_askHost _ _ _ fun _ => rfl).bind fun made => ?_
  cases made with
  | host ref => exact fun m => ⟨.of_scopes rfl id rfl rfl rfl rfl, trivial⟩
  | _ => exact .pure _

namespace BuiltinCall

variable (call : BuiltinCall)

theorem steady_number (place : Nat) : Steady (call.number place) := by
  unfold number
  split
  · exact .pure _
  · exact steady_fault _ _ rfl

theorem steady_point (place : Nat) : Steady (call.point place) := by
  refine .reading fun m => ?_
  split
  · exact .pure _
  · exact steady_fault _ _ rfl

theorem steady_delegate (method : String) : Steady (call.delegate method) := by
  unfold delegate
  split
  · exact steady_askHost _ _ _ fun _ => rfl
  · exact steady_fault _ _ rfl

theorem steady_angle : Steady call.angle :=
  (call.steady_point 0).bind fun _ => (call.steady_point 1).bind fun _ =>
    (call.steady_point 2).bind fun _ => .pure _

theorem steady_numeric (f : Float → Float) : Steady (call.numeric f) :=
  (call.steady_number 0).bind fun _ => .pure _

theorem steady_perform (action : BuiltinAction) : Steady (call.perform action) := by
  cases action with
  | log => exact .reading fun m => (steady_writeLine _ _).bind fun _ => .pure _
  | select => exact .reading fun m => .pure _
  | remove =>
      simp only [perform]
      split
      · exact (steady_updateHeap _).bind fun _ => .pure _
      · exact .pure _
  | ifThen => exact .pure _
  | value => exact call.steady_delegate _
  | length => exact call.steady_delegate _
  | dist => exact (call.steady_point 0).bind fun _ => (call.steady_point 1).bind fun _ => .pure _
  | rad => exact call.steady_angle.bind fun _ => .pure _
  | deg => exact call.steady_angle.bind fun _ => .pure _
  | factorial => exact (call.steady_number 0).bind fun _ => .pure _
  | trunc =>
      simp only [perform]
      refine (call.steady_number 0).bind fun x => ?_
      split
      · exact (call.steady_number 1).bind fun _ => .pure _
      · exact .pure _
  | logarithm =>
      simp only [perform]
      refine (call.steady_number 0).bind fun x => ?_
      split
      · exact (call.steady_number 1).bind fun _ => .pure _
      · exact .pure _
  | ln => exact call.steady_numeric _
  | log10 => exact call.steady_numeric _
  | log2 => exact call.steady_numeric _
  | cosh => exact call.steady_numeric _
  | sinh => exact call.steady_numeric _
  | fail => exact (steady_textOf _).bind fun _ => steady_fault _ _ rfl
  | cancel => exact fun m => ⟨.of_scopes rfl (fun _ => rfl) rfl rfl rfl rfl, trivial⟩
  | count => exact .pure _

end BuiltinCall

theorem steady_builtin (b : Builtin) (args : List Value) (span : Span) :
    Steady (b.call args span) := by
  unfold Builtin.call
  split
  · exact BuiltinCall.steady_perform _ _
  · exact steady_fault _ _ rfl

/-- Calling anything but a closure. -/
theorem steady_callValue {call : Caller} {callee : Value} {args : List Value}
    {attributes : Option Fields} {site : CallSite}
    (hcallee : ∀ c, callee = .closure c → attributes ≠ none) :
    Steady (callValue call callee args attributes site) := by
  cases callee with
  | creator creator => exact steady_invokeCreator creator args attributes site
  | closure c =>
      cases attributes with
      | some attributes => exact steady_fault _ _ rfl
      | none => exact absurd rfl (hcallee c rfl)
  | builtin b =>
      cases attributes with
      | some attributes => exact steady_fault _ _ rfl
      | none => exact steady_builtin b args site.span
  | math function =>
      cases attributes with
      | some attributes => exact steady_fault _ _ rfl
      | none => exact (steady_numbers _ _ args).bind fun _ => .pure _
  | method receiver name =>
      cases attributes with
      | some attributes => exact steady_fault _ _ rfl
      | none =>
          show Steady (askHost (fun heap => heap.callMethod receiver name args) .host site.span)
          exact steady_askHost _ _ _ fun _ => rfl
  | _ => cases attributes <;> exact steady_fault _ _ rfl

end BoardScript
