/-
Actions on machines that store what they may. An action keeps to such
machines if it leaves one behind on which all values are stored values
again, whatever it comes to, and makes nothing on a board (`Keeps`). All
actions that evaluation is made of do, except that creators make something.
-/
import BoardScript.Proofs.Run.Steady
import BoardScript.Proofs.Value.Computed

namespace BoardScript

/-- A machine on which all values have a property: those on its heap and
those that its scopes bind. -/
structure Machine.Stores (P : Value → Prop) (m : Machine) : Prop where
  heap : m.heap.Stores P
  scopes : ∀ s ∈ m.scopes.table, ∀ p ∈ s.locals, P p.2

/-- A machine later on, in front of the same host, on which nothing was
made. -/
structure Machine.Quiet (m n : Machine) : Prop where
  host : n.host = m.host
  created : n.created = m.created
  heap : m.heap.Still n.heap

namespace Machine.Quiet

theorem refl (m : Machine) : m.Quiet m := ⟨rfl, rfl, .refl _⟩

theorem trans {m n k : Machine} (h : m.Quiet n) (h' : n.Quiet k) : m.Quiet k :=
  ⟨h'.host.trans h.host, h'.created.trans h.created, h.heap.trans h'.heap⟩

theorem of_heap {m n : Machine} (hhost : n.host = m.host) (hcreated : n.created = m.created)
    (hheap : n.heap = m.heap) : m.Quiet n :=
  ⟨hhost, hcreated, hheap ▸ .refl _⟩

end Machine.Quiet

variable {C : Closure → Prop}

section

variable {α β : Type} {Q : α → Prop} {R : β → Prop}

/-- An end on a machine of stored values, with what has a property or with
the return of a stored value. -/
def Kept (C : Closure → Prop) (Q : α → Prop) : EStateM.Result Unwind Machine α → Prop
  | .ok a m => m.Stores (Value.Stored C) ∧ Q a
  | .error e m => m.Stores (Value.Stored C) ∧ ∀ v, e = .returned v → v.Stored C

/-- An action that keeps to machines of stored values and makes nothing. -/
def Keeps (C : Closure → Prop) (Q : α → Prop) (x : Eval α) : Prop :=
  ∀ m : Machine, m.Stores (Value.Stored C) → Kept C Q (x m) ∧ m.Quiet (after (x m))

theorem Kept.mono {Q' : α → Prop} {r : EStateM.Result Unwind Machine α} (h : Kept C Q r)
    (hQ : ∀ a, Q a → Q' a) : Kept C Q' r := by
  cases r with
  | ok a m => exact ⟨h.1, hQ a h.2⟩
  | error e m => exact h

theorem kept_failed {m : Machine} (hm : m.Stores (Value.Stored C)) (error : RuntimeError) :
    Kept C Q (.error (.failed error) m) :=
  ⟨hm, fun _ h => nomatch h⟩

namespace Keeps

theorem pure {a : α} (ha : Q a) : Keeps C Q (Pure.pure a) := fun m hm => ⟨⟨hm, ha⟩, .refl m⟩

theorem bind {x : Eval α} {k : α → Eval β} (hx : Keeps C Q x) (hk : ∀ a, Q a → Keeps C R (k a)) :
    Keeps C R (x >>= k) := by
  intro m hm
  obtain ⟨hfirst, hquiet⟩ := hx m hm
  show Kept C R (EStateM.bind x k m) ∧ m.Quiet (after (EStateM.bind x k m))
  unfold EStateM.bind
  cases hr : x m with
  | ok a n =>
      rw [hr] at hfirst hquiet
      obtain ⟨hsecond, hquiet'⟩ := hk a hfirst.2 n hfirst.1
      exact ⟨hsecond, hquiet.trans hquiet'⟩
  | error e n =>
      rw [hr] at hfirst hquiet
      exact ⟨hfirst, hquiet⟩

/-- An action that begins by looking at the machine. -/
theorem get {k : Machine → Eval β}
    (hk : ∀ m : Machine, m.Stores (Value.Stored C) → Kept C R (k m m) ∧ m.Quiet (after (k m m))) :
    Keeps C R (MonadState.get >>= k) :=
  fun m hm => hk m hm

theorem reading {k : Machine → Eval β}
    (hk : ∀ m : Machine, m.Stores (Value.Stored C) → Keeps C R (k m)) :
    Keeps C R (MonadState.get >>= k) :=
  fun m hm => hk m hm m hm

theorem fault (f : Fault) (span : Span) : Keeps C Q (BoardScript.fault f span) :=
  fun m hm => ⟨kept_failed hm _, .refl m⟩

theorem exhausted : Keeps C Q (throw .exhausted) := fun m hm => ⟨⟨hm, fun _ h => nomatch h⟩, .refl m⟩

end Keeps

end

-- =========================================================== small actions

namespace Machine.Stores

variable {P : Value → Prop} {m : Machine}

theorem mono {Q : Value → Prop} (hP : ∀ v, P v → Q v) (hm : m.Stores P) : m.Stores Q :=
  ⟨hm.heap.mono hP, fun s hs p hp => hP p.2 (hm.scopes s hs p hp)⟩

/-- Only heap and scopes store values. -/
theorem of_eq {n : Machine} (hm : m.Stores P) (hheap : n.heap = m.heap)
    (hscopes : n.scopes = m.scopes) : n.Stores P :=
  ⟨hheap ▸ hm.heap, hscopes ▸ hm.scopes⟩

theorem withHeap (hm : m.Stores P) {heap : Heap} (hh : heap.Stores P) : { m with heap }.Stores P :=
  ⟨hh, hm.scopes⟩

end Machine.Stores

/-- Failing leaves the machine as it is. -/
theorem keeps_failed {α : Type} {Q : α → Prop} {m : Machine} (hm : m.Stores (Value.Stored C))
    (error : RuntimeError) :
    Kept C Q (.error (.failed error) m) ∧ m.Quiet (after (.error (.failed error) m : EStateM.Result _ _ α)) :=
  ⟨kept_failed hm error, .refl m⟩

theorem keeps_warn (warning : Warning) : Keeps C (fun _ => True) (warn warning) :=
  fun _ hm => ⟨⟨hm.of_eq rfl rfl, trivial⟩, .of_heap rfl rfl rfl⟩

theorem keeps_writeLine (line : String) (span : Span) :
    Keeps C (fun _ => True) (writeLine line span) := by
  intro m hm
  unfold writeLine
  split
  · exact keeps_failed hm _
  · exact ⟨⟨hm.of_eq rfl rfl, trivial⟩, .of_heap rfl rfl rfl⟩

theorem keeps_checkCancelled (span : Span) : Keeps C (fun _ => True) (checkCancelled span) := by
  intro m hm
  unfold checkCancelled
  split
  · split
    · exact keeps_failed hm _
    · exact ⟨⟨hm, trivial⟩, .refl m⟩
  · exact ⟨⟨hm.of_eq rfl rfl, fun _ h => nomatch h⟩, .of_heap rfl rfl rfl⟩
  · split
    · exact keeps_failed hm _
    · exact ⟨⟨hm.of_eq rfl rfl, trivial⟩, .of_heap rfl rfl rfl⟩

theorem keeps_textOf (v : Value) : Keeps C (fun _ => True) (textOf v) :=
  .reading fun _ _ => .pure trivial

theorem keeps_allocate {make : Heap → Value × Heap}
    (hmake : ∀ h : Heap, h.Stores (Value.Stored C) →
      (make h).1.Stored C ∧ (make h).2.Stores (Value.Stored C))
    (hstill : ∀ h : Heap, h.Still (make h).2) : Keeps C (Value.Stored C) (allocate make) :=
  fun m hm => ⟨⟨hm.withHeap (hmake m.heap hm.heap).2, (hmake m.heap hm.heap).1⟩, rfl, rfl, hstill m.heap⟩

theorem keeps_newArray {items : List Value} (hi : ∀ v ∈ items, v.Stored C) :
    Keeps C (Value.Stored C) (allocate (·.newArray items.toArray)) :=
  keeps_allocate (fun _ hh => ⟨trivial, hh.newArray fun v hv => hi v (List.mem_toArray.1 hv)⟩)
    fun _ => ⟨rfl, Nat.le_refl _⟩

theorem keeps_newObject {fields : Fields} (hf : ∀ p ∈ fields, p.2.Stored C) :
    Keeps C (Value.Stored C) (allocate (·.newObject fields)) :=
  keeps_allocate (fun _ hh => ⟨trivial, hh.newObject hf⟩) fun _ => ⟨rfl, Nat.le_refl _⟩

theorem keeps_updateHeap {change : Heap → Heap}
    (hchange : ∀ h : Heap, h.Stores (Value.Stored C) → (change h).Stores (Value.Stored C))
    (hstill : ∀ h : Heap, h.Still (change h)) : Keeps C (fun _ => True) (updateHeap change) :=
  fun m hm => ⟨⟨hm.withHeap (hchange m.heap hm.heap), trivial⟩, rfl, rfl, hstill m.heap⟩

theorem keeps_remove (ref : HostRef) : Keeps C (fun _ => True) (updateHeap (·.remove ref)) :=
  keeps_updateHeap (fun _ hh => hh.remove ref) fun h => .remove h ref

theorem keeps_changeHeap {change : Heap → Except HostError Heap} (refusal : HostError → Fault)
    (span : Span) (hchange : ∀ h h' : Heap, h.Stores (Value.Stored C) → change h = .ok h' →
      h'.Stores (Value.Stored C)) (hstill : ∀ h h' : Heap, change h = .ok h' → h.Still h') :
    Keeps C (fun _ => True) (changeHeap change refusal span) := by
  intro m hm
  unfold changeHeap
  split
  · exact ⟨⟨hm.withHeap (hchange _ _ hm.heap ‹_›), trivial⟩, rfl, rfl, hstill _ _ ‹_›⟩
  · exact keeps_failed hm _

theorem kept_askHost {ask : Heap → Except HostError (Value × Heap)} (refusal : HostError → Fault)
    (span : Span) (hask : ∀ h : Heap, h.Stores (Value.Stored C) → Heap.Gives C (ask h)) {m : Machine}
    (hm : m.Stores (Value.Stored C)) : Kept C (Value.Stored C) (askHost ask refusal span m) := by
  unfold askHost
  split
  · obtain ⟨hv, hh⟩ := hask m.heap hm.heap _ _ ‹_›
    exact ⟨hm.withHeap hh, hv⟩
  · exact kept_failed hm _

theorem keeps_callMethod (ref : HostRef) (method : String) (args : List Value) (span : Span) :
    Keeps C (Value.Stored C) (askHost (fun heap => heap.callMethod ref method args) .host span) := by
  intro m hm
  refine ⟨kept_askHost _ _ (fun _ hh => hh.callMethod ref method args) hm, ?_⟩
  unfold askHost
  split
  · exact ⟨rfl, rfl, .callMethod ‹_›⟩
  · exact .refl m

theorem keeps_binaryOperation (operator : BinaryOperator) {left right : Value} (hl : left.Stored C)
    (hr : right.Stored C) (span : Span) :
    Keeps C (Value.Stored C) (binaryOperation operator left right span) := by
  intro m hm
  unfold binaryOperation
  split
  · obtain ⟨hv, hh, hstill⟩ := Operators.computes_binary operator hl hr m.heap hm.heap _ _ ‹_›
    exact ⟨⟨hm.withHeap hh, hv⟩, rfl, rfl, hstill⟩
  · exact keeps_failed hm _

theorem keeps_unaryOperation (operator : UnaryOperator) (operand : Value) (span : Span) :
    Keeps C (Value.Stored C) (unaryOperation operator operand span) := by
  intro m hm
  unfold unaryOperation
  split
  · obtain ⟨hv, hh, hstill⟩ := Operators.computes_unary operator operand m.heap hm.heap _ _ ‹_›
    exact ⟨⟨hm.withHeap hh, hv⟩, rfl, rfl, hstill⟩
  · exact keeps_failed hm _

-- ============================================================== properties

/-- What is there is stored, and undefined is. -/
theorem stored_getD {found : Option Value} (h : ∀ v, found = some v → v.Stored C) :
    (found.getD .undefined).Stored C := by
  cases found with
  | none => trivial
  | some v => exact h v rfl

theorem stored_getElem? {items : Array Value} (h : ∀ v ∈ items, v.Stored C) (i : Nat) :
    ∀ v, items[i]? = some v → v.Stored C :=
  fun v hv => h v (Array.mem_of_getElem? hv)

theorem keeps_getProperty (owner : Value) (name : String) (span : Span) :
    Keeps C (Value.Stored C) (getProperty owner name span) := by
  refine .reading fun m hm => ?_
  cases owner with
  | host ref =>
      dsimp only
      cases hsub : m.heap.subObject ref name with
      | some v => exact .pure (Heap.stored_subObject hsub)
      | none =>
          cases m.heap.methodAlias ref name with
          | some method => exact .pure trivial
          | none =>
              dsimp only
              cases hattribute : m.heap.attribute? ref (lowercase name) with
              | some v => exact .pure (hm.heap.attribute? hattribute)
              | none => exact .fault _ _
  | object place =>
      exact .pure (stored_getD fun v hv => Fields.of_get? (P := Value.Stored C) (hm.heap.object place) hv)
  | array place =>
      dsimp only
      split
      · exact .pure trivial
      · exact .fault _ _
  | string text =>
      dsimp only
      split
      · exact .pure trivial
      · exact .fault _ _
  | _ => exact .fault _ _

theorem keeps_setProperty (owner : Value) (name : String) {value : Value} (hv : value.Stored C)
    (span : Span) : Keeps C (fun _ => True) (setProperty owner name value span) := by
  unfold setProperty
  cases owner with
  | host ref =>
      dsimp only
      split
      · exact .fault _ _
      · exact keeps_changeHeap _ _ (fun _ _ hh hset => hh.setProperty hv hset) fun _ _ hset => .setProperty hset
  | object place =>
      exact keeps_updateHeap (fun _ hh => hh.setField place name hv) fun _ => ⟨rfl, Nat.le_refl _⟩
  | array place => dsimp only; split <;> exact .fault _ _
  | string text => dsimp only; split <;> exact .fault _ _
  | _ => exact .fault _ _

theorem keeps_getIndex (base index : Value) : Keeps C (Value.Stored C) (getIndex base index) := by
  refine .reading fun m hm => .pure (stored_getD fun v hv => ?_)
  split at hv
  · obtain ⟨i, -, hv⟩ := Option.bind_eq_some_iff.1 hv
    exact stored_getElem? (hm.heap.array _) i v hv
  · obtain ⟨i, -, hv⟩ := Option.bind_eq_some_iff.1 hv
    obtain ⟨c, -, rfl⟩ := Option.map_eq_some_iff.1 hv
    trivial
  · obtain ⟨i, -, hv⟩ := Option.bind_eq_some_iff.1 hv
    exact Heap.stored_itemOf hv
  · exact Fields.of_get? (P := Value.Stored C) (hm.heap.object _) hv
  · cases hv

theorem keeps_invalidIndex {α : Type} {Q : α → Prop} (base index : Value) (span : Span) :
    Keeps C Q (invalidIndex base index span) :=
  .reading fun _ _ => .fault _ _

theorem keeps_setIndex (base index : Value) {value : Value} (hv : value.Stored C) (span : Span) :
    Keeps C (fun _ => True) (setIndex base index value span) := by
  unfold setIndex
  split
  · split
    · exact keeps_updateHeap (fun _ hh => hh.setItem trivial _ _ hv) fun _ => ⟨rfl, Nat.le_refl _⟩
    · exact keeps_invalidIndex _ _ _
  · exact keeps_changeHeap _ _ (fun _ _ hh hset => hh.setItemOf hset) fun _ _ hset => .setItemOf hset
  · exact (keeps_textOf _).bind fun _ _ =>
      keeps_updateHeap (fun _ hh => hh.setField _ _ hv) fun _ => ⟨rfl, Nat.le_refl _⟩
  · exact keeps_invalidIndex _ _ _

theorem keeps_coordinateOf (axis : Axis) (target : Value) (span : Span) :
    Keeps C (Value.Stored C) (coordinateOf axis target span) := by
  refine .reading fun m hm => ?_
  cases target with
  | host ref =>
      refine .pure (stored_getD fun v hv => ?_)
      obtain ⟨_, -, rfl⟩ := Option.map_eq_some_iff.1 hv
      trivial
  | array place => exact .pure (stored_getD (stored_getElem? (hm.heap.array place) _))
  | _ => exact .fault _ _

-- ======================================================== names and boards

theorem keeps_useSession (name : String) (span : Span) :
    Keeps C (fun _ => True) (useSession name span) := by
  refine (keeps_warn _).bind fun _ _ => .get fun m hm => ?_
  cases m.host.selectSession m.heap name with
  | some session => exact ⟨⟨hm.of_eq rfl rfl, trivial⟩, .of_heap rfl rfl rfl⟩
  | none => exact keeps_failed hm _

theorem keeps_deleteValue (target : Value) (span : Span) :
    Keeps C (Value.Stored C) (deleteValue target span) := by
  refine (keeps_warn _).bind fun _ _ => ?_
  cases target with
  | host ref =>
      exact (keeps_remove ref).bind fun _ _ => .pure trivial
  | _ => exact .pure trivial

namespace Scope

variable {P : Value → Prop} {s : Scope}

theorem of_define (h : ∀ p ∈ s.locals, P p.2) (name : String) {v : Value} (hv : P v) :
    ∀ p ∈ (s.define name v).locals, P p.2 := by
  show ∀ p ∈ define.go name v s.locals, P p.2
  generalize s.locals = fields at h
  induction fields with
  | nil => exact List.forall_mem_singleton.2 hv
  | cons field rest ih =>
      obtain ⟨hfield, hrest⟩ := List.forall_mem_cons.1 h
      rw [define.go]
      split
      · exact List.forall_mem_cons.2 ⟨hv, hrest⟩
      · exact List.forall_mem_cons.2 ⟨hfield, ih hrest⟩

end Scope

namespace Scopes

variable {P : Value → Prop} {table : Array Scope}

/-- What is bound was stored in a scope. -/
theorem of_lookupFrom (h : ∀ s ∈ table, ∀ p ∈ s.locals, P p.2) (scope : ScopeId) {name : String}
    {v : Value} (hv : lookupFrom table scope name = some v) : P v := by
  induction scope using Nat.strongRecOn with
  | ind scope ih =>
      rw [lookupFrom] at hv
      split at hv
      · cases hv
      · rename_i s hs
        split at hv
        · rename_i w hw
          cases hv
          exact Fields.of_get? (h s (Array.mem_of_getElem? hs)) hw
        · split at hv
          · cases hv
          · split at hv
            · exact ih _ ‹_› hv
            · cases hv

theorem of_bindParams {args : List Value} (hundefined : P .undefined) (ha : ∀ v ∈ args, P v)
    (params : List String) : ∀ p ∈ bindParams params args, P p.2 := by
  have harg (place : Nat) : P (args.getD place .undefined) := by
    rw [List.getD_eq_getElem?_getD]
    cases hv : args[place]? with
    | none => exact hundefined
    | some v => exact ha v (List.mem_of_getElem? hv)
  suffices hfold : ∀ (pairs : List (String × Nat)) (s : Scope), (∀ p ∈ s.locals, P p.2) →
      ∀ p ∈ (pairs.foldl (fun scope pair =>
        Scope.define pair.1 (args.getD pair.2 .undefined) scope) s).locals, P p.2 from
    hfold _ _ (List.forall_mem_nil _)
  intro pairs
  induction pairs with
  | nil => exact fun _ hs => hs
  | cons pair rest ih => exact fun s hs => ih _ (Scope.of_define hs pair.1 (harg pair.2))

end Scopes

theorem Machine.Stores.lookup {P : Value → Prop} {m : Machine} (hm : m.Stores P) {name : String}
    {v : Value} (hv : m.scopes.lookup name = some v) : P v :=
  Scopes.of_lookupFrom hm.scopes _ hv

theorem Machine.Stores.define {P : Value → Prop} {m : Machine} (hm : m.Stores P) (name : String)
    {v : Value} (hv : P v) : { m with scopes := m.scopes.define name v }.Stores P :=
  ⟨hm.heap, forall_mem_modify hm.scopes _ fun _ hs => Scope.of_define hs name hv⟩

theorem keeps_assignLocal (name : String) {value : Value} (hv : value.Stored C) (span : Span) :
    Keeps C (fun _ => True) (assignLocal name value span) := by
  have hbind : Keeps C (fun _ => True)
      (modify fun m => { m with scopes := m.scopes.define name value } : Eval PUnit) :=
    fun m hm => ⟨⟨hm.define name hv, trivial⟩, .of_heap rfl rfl rfl⟩
  refine .reading fun m hm => ?_
  dsimp only
  split
  · exact (keeps_warn _).bind fun _ _ => hbind
  · exact hbind

/-- A name that is read stands for a stored value. -/
theorem keeps_readName (name : String) : Keeps C (Value.Stored C) (readName name) := by
  refine .reading fun m hm => .pure ?_
  split
  · exact hm.lookup ‹_›
  · split
    · trivial
    · split
      · exact stored_getD fun v hv => Host.stored_sessionObject hv
      · exact stored_getD fun v hv => Host.stored_select hv

/-- What can stand in front of the arguments of a call: a closure only if
of a kind. -/
def Value.Callee (C : Closure → Prop) (v : Value) : Prop := ∀ c, v = .closure c → C c

theorem Value.Stored.callee {v : Value} (h : v.Stored C) : v.Callee C := by
  rintro c rfl
  exact h

theorem keeps_readCallee (name : String) (span : Span) :
    Keeps C (Value.Callee C) (readCallee name span) := by
  have hpredefined (m : Machine) (hm : m.Stores (Value.Stored C)) (bound : Option Value) :
      Kept C (Value.Callee C) (readCallee.predefined name span m bound m) ∧
        m.Quiet (after (readCallee.predefined name span m bound m)) := by
    unfold readCallee.predefined
    cases m.builtins.find? (·.name == name) with
    | some builtin => exact ⟨⟨hm, fun _ h => nomatch h⟩, .refl m⟩
    | none =>
        cases m.host.has m.session name with
        | true => exact ⟨⟨hm.of_eq rfl rfl, fun _ h => nomatch h⟩, .of_heap rfl rfl rfl⟩
        | false =>
            cases MathFunction.ofName? name with
            | some function => exact ⟨⟨hm, fun _ h => nomatch h⟩, .refl m⟩
            | none => cases bound <;> exact keeps_failed hm _
  refine .get fun m hm => ?_
  cases hbound : m.scopes.lookup name with
  | none => exact hpredefined m hm none
  | some value =>
      cases hcallable : value.isCallable with
      | true =>
          simp only [hcallable]
          exact ⟨⟨hm, (hm.lookup hbound).callee⟩, .refl m⟩
      | false =>
          simp only [hcallable]
          exact hpredefined m hm (some value)

theorem keeps_makeClosure {literal : FunctionLiteral} {compiled : Option Chunk} {source : Source}
    (hmade : ∀ identity scope dependencies,
      C ⟨identity, literal, scope, dependencies, compiled, source⟩) :
    Keeps C (Value.Stored C) (makeClosure literal compiled source) := by
  intro m hm
  rw [makeClosure_eq]
  split
  · exact keeps_failed hm _
  · exact ⟨⟨hm.of_eq rfl rfl, hmade _ _ _⟩, .of_heap rfl rfl rfl⟩

-- =================================================================== calls

theorem keeps_numbers (function : String) (span : Span) (args : List Value) :
    Keeps C (fun _ => True) (numbers function span args) := by
  induction args with
  | nil => exact .pure trivial
  | cons arg args ih =>
      cases arg with
      | number x => exact ih.bind fun _ _ => .pure trivial
      | _ => exact .fault _ _

/-- What a creator does: it has the host make something, and notes it. -/
theorem invokeCreator_eq (creator : Creator) (parents : List Value) (attributes : Option Fields)
    (site : CallSite) (m : Machine) :
    invokeCreator creator parents attributes site m =
      match m.host.invoke m.heap creator.session creator.name parents (site.attributes attributes) with
      | .ok (.host ref, heap) =>
          .ok (.host ref)
            { m with heap, created := m.created.push (.at ref site.source site.span) }
      | .ok (made, heap) => .ok made { m with heap }
      | .error cause => .error (.failed (.fault (.creatorFailed creator.name cause) site.span)) m := by
  show (askHost (fun heap => m.host.invoke heap creator.session creator.name parents
    (site.attributes attributes)) (.creatorFailed creator.name) site.span >>= _ : Eval Value) m = _
  simp only [bind, EStateM.bind, askHost]
  cases m.host.invoke m.heap creator.session creator.name parents (site.attributes attributes) with
  | error cause => rfl
  | ok answer =>
      obtain ⟨made, heap⟩ := answer
      cases made <;> rfl

/-- A creator gives a stored value, and leaves a machine of stored values. -/
theorem kept_invokeCreator (creator : Creator) (parents : List Value)
    {attributes : Option Fields} (ha : ∀ fields, attributes = some fields → ∀ p ∈ fields, p.2.Stored C)
    (site : CallSite) {m : Machine} (hm : m.Stores (Value.Stored C)) :
    Kept C (Value.Stored C) (invokeCreator creator parents attributes site m) := by
  have hattributes : ∀ p ∈ site.attributes attributes, p.2.Stored C := by
    unfold CallSite.attributes
    cases attributes with
    | some fields => exact ha fields rfl
    | none =>
        cases site.naming with
        | some name => exact List.forall_mem_singleton.2 trivial
        | none => exact List.forall_mem_nil _
  rw [invokeCreator_eq]
  have hgives := hm.heap.invoke m.host creator.session creator.name parents hattributes
  split
  · exact ⟨(hm.withHeap (hgives _ _ ‹_›).2).of_eq rfl rfl, trivial⟩
  · exact ⟨hm.withHeap (hgives _ _ ‹_›).2, (hgives _ _ ‹_›).1⟩
  · exact kept_failed hm _

namespace BuiltinCall

variable {call : BuiltinCall}

theorem stored_arg (h : ∀ v ∈ call.args, v.Stored C) (place : Nat) : (call.arg place).Stored C := by
  rw [arg, List.getD_eq_getElem?_getD]
  exact stored_getD fun v hv => h v (List.mem_of_getElem? hv)

variable (call)

theorem keeps_number (place : Nat) : Keeps C (fun _ => True) (call.number place) := by
  unfold number
  split
  · exact .pure trivial
  · exact .fault _ _

theorem keeps_point (place : Nat) : Keeps C (fun _ => True) (call.point place) := by
  refine .reading fun m _ => ?_
  split
  · exact .pure trivial
  · exact .fault _ _

theorem keeps_delegate (method : String) : Keeps C (Value.Stored C) (call.delegate method) := by
  unfold delegate
  split
  · exact keeps_callMethod _ method [] _
  · exact .fault _ _

theorem keeps_angle : Keeps C (fun _ => True) call.angle :=
  (call.keeps_point 0).bind fun _ _ => (call.keeps_point 1).bind fun _ _ =>
    (call.keeps_point 2).bind fun _ _ => .pure trivial

theorem keeps_numeric (f : Float → Float) : Keeps C (Value.Stored C) (call.numeric f) :=
  (call.keeps_number 0).bind fun _ _ => .pure trivial

theorem keeps_perform (h : ∀ v ∈ call.args, v.Stored C) (action : BuiltinAction) :
    Keeps C (Value.Stored C) (call.perform action) := by
  cases action with
  | log => exact .reading fun _ _ => (keeps_writeLine _ _).bind fun _ _ => .pure trivial
  | select => exact .reading fun m _ => .pure (stored_getD fun v hv => Host.stored_select hv)
  | remove =>
      simp only [perform]
      split
      · exact (keeps_remove _).bind fun _ _ => .pure trivial
      · exact .pure trivial
  | ifThen =>
      refine .pure ?_
      split <;> exact stored_arg h _
  | value => exact call.keeps_delegate _
  | length => exact call.keeps_delegate _
  | dist =>
      exact (call.keeps_point 0).bind fun _ _ => (call.keeps_point 1).bind fun _ _ => .pure trivial
  | rad => exact call.keeps_angle.bind fun _ _ => .pure trivial
  | deg => exact call.keeps_angle.bind fun _ _ => .pure trivial
  | factorial => exact (call.keeps_number 0).bind fun _ _ => .pure trivial
  | trunc =>
      simp only [perform]
      refine (call.keeps_number 0).bind fun x _ => ?_
      split
      · exact (call.keeps_number 1).bind fun _ _ => .pure trivial
      · exact .pure trivial
  | logarithm =>
      simp only [perform]
      refine (call.keeps_number 0).bind fun x _ => ?_
      split
      · exact (call.keeps_number 1).bind fun _ _ => .pure trivial
      · exact .pure trivial
  | ln => exact call.keeps_numeric _
  | log10 => exact call.keeps_numeric _
  | log2 => exact call.keeps_numeric _
  | cosh => exact call.keeps_numeric _
  | sinh => exact call.keeps_numeric _
  | fail => exact (keeps_textOf _).bind fun _ _ => .fault _ _
  | cancel => exact fun m hm => ⟨⟨hm.of_eq rfl rfl, trivial⟩, .of_heap rfl rfl rfl⟩
  | count => exact .pure trivial

end BuiltinCall

theorem keeps_builtin (b : Builtin) {args : List Value} (h : ∀ v ∈ args, v.Stored C) (span : Span) :
    Keeps C (Value.Stored C) (b.call args span) := by
  unfold Builtin.call
  split
  · exact BuiltinCall.keeps_perform _ h _
  · exact .fault _ _

end BoardScript
