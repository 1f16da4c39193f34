/-
What is stored. Builtins, creators and mathematical functions are entries of
tables, and a value that is one is not first class (`Value.FirstClass`). A
heap that stores values with a property keeps to it whatever is done with
values that have it: a new array or object, a field or an item that is
written, what an operator gives, what a host is asked for and what it creates.

The property is that a value is first class, and a closure only if of a kind
(`Value.Stored`). Which kind is left open.
-/
import BoardScript.Proofs.Host.Onward
import BoardScript.Proofs.Value.Natural

namespace BoardScript

/-- A value that is no entry of a table of functions. -/
def Value.FirstClass : Value → Prop
  | .builtin _ | .creator _ | .math _ => False
  | _ => True

/-- A first-class value that is a closure only if of a kind. -/
def Value.Stored (C : Closure → Prop) : Value → Prop
  | .builtin _ | .creator _ | .math _ => False
  | .closure c => C c
  | _ => True

theorem Value.Stored.firstClass {C : Closure → Prop} {v : Value} (h : v.Stored C) : v.FirstClass := by
  cases v <;> first | exact h | trivial

-- ================================================================= fields

namespace Fields

variable {P : Value → Prop} {fields : Fields}

theorem of_get? (h : ∀ p ∈ fields, P p.2) {name : String} {v : Value}
    (hv : fields.get? name = some v) : P v := by
  obtain ⟨before, behind, rfl, -⟩ := List.lookup_eq_some_iff.1 hv
  exact h (name, v) (by simp)

theorem of_insert (h : ∀ p ∈ fields, P p.2) (name : String) {v : Value} (hv : P v) :
    ∀ p ∈ insert name v fields, P p.2 := by
  induction fields with
  | nil => simpa [insert] using hv
  | cons field rest ih =>
      obtain ⟨hfield, hrest⟩ := List.forall_mem_cons.1 h
      rw [insert]
      split
      · exact List.forall_mem_cons.2 ⟨hv, hrest⟩
      split
      · exact List.forall_mem_cons.2 ⟨hv, h⟩
      · exact List.forall_mem_cons.2 ⟨hfield, ih hrest⟩

theorem of_ofPairs {pairs : List (String × Value)} (h : ∀ p ∈ pairs, P p.2) :
    ∀ p ∈ ofPairs pairs, P p.2 := by
  suffices hfold : ∀ fields : Fields, (∀ p ∈ fields, P p.2) →
      ∀ p ∈ pairs.foldl (fun fields pair => insert pair.1 pair.2 fields) fields, P p.2 from
    hfold [] (List.forall_mem_nil _)
  induction pairs with
  | nil => exact fun _ hfields => hfields
  | cons pair rest ih =>
      obtain ⟨hpair, hrest⟩ := List.forall_mem_cons.1 h
      exact fun fields hfields => ih hrest _ (of_insert hfields pair.1 hpair)

end Fields

-- =================================================================== heap

/-- A heap on which all values have a property: the items of arrays, the
fields of objects and the attributes of elements. -/
structure Heap.Stores (P : Value → Prop) (h : Heap) : Prop where
  arrays : ∀ items ∈ h.arrays, ∀ v ∈ items, P v
  objects : ∀ fields ∈ h.objects, ∀ p ∈ fields, P p.2
  elements : ∀ e ∈ h.elements, ∀ p ∈ e.attributes, P p.2

/-- What becomes of the items of an array when one is changed. -/
theorem forall_mem_modify {α : Type} {P : α → Prop} {as : Array α} (h : ∀ a ∈ as, P a) (i : Nat)
    {f : α → α} (hf : ∀ a, P a → P (f a)) : ∀ a ∈ as.modify i f, P a := by
  intro a ha
  obtain ⟨j, hj, rfl⟩ := Array.mem_iff_getElem.1 ha
  rw [Array.getElem_modify]
  have hj' : j < as.size := by rwa [Array.size_modify] at hj
  split
  · exact hf _ (h _ (Array.getElem_mem hj'))
  · exact h _ (Array.getElem_mem hj')

theorem forall_mem_push {α : Type} {P : α → Prop} {as : Array α} (h : ∀ a ∈ as, P a) {b : α}
    (hb : P b) : ∀ a ∈ as.push b, P a := by
  intro a ha
  rcases Array.mem_push.1 ha with ha | rfl
  · exact h a ha
  · exact hb

namespace Heap.Stores

variable {P : Value → Prop} {h : Heap}

theorem mono {Q : Value → Prop} (hP : ∀ v, P v → Q v) (hh : h.Stores P) : h.Stores Q :=
  ⟨fun items hi v hv => hP v (hh.arrays items hi v hv),
    fun fields hf p hp => hP p.2 (hh.objects fields hf p hp),
    fun e he p hp => hP p.2 (hh.elements e he p hp)⟩

theorem array (hh : h.Stores P) (place : ArrayId) : ∀ v ∈ h.array place, P v := by
  unfold Heap.array Array.getD
  split
  · exact hh.arrays _ (Array.getElem_mem _)
  · exact fun v hv => nomatch hv

theorem object (hh : h.Stores P) (place : ObjectId) : ∀ p ∈ h.object place, P p.2 := by
  unfold Heap.object Array.getD
  split
  · exact hh.objects _ (Array.getElem_mem _)
  · exact fun p hp => nomatch hp

theorem newArray (hh : h.Stores P) {items : Array Value} (hi : ∀ v ∈ items, P v) :
    (h.newArray items).2.Stores P :=
  ⟨forall_mem_push hh.arrays hi, hh.objects, hh.elements⟩

theorem newObject (hh : h.Stores P) {fields : Fields} (hf : ∀ p ∈ fields, P p.2) :
    (h.newObject fields).2.Stores P :=
  ⟨hh.arrays, forall_mem_push hh.objects hf, hh.elements⟩

theorem newElement (hh : h.Stores P) {e : Element} (he : ∀ p ∈ e.attributes, P p.2) :
    (h.newElement e).2.Stores P :=
  ⟨hh.arrays, hh.objects, forall_mem_push hh.elements he⟩

theorem setItem (hh : h.Stores P) (hundefined : P .undefined) (place : ArrayId) (index : Nat)
    {v : Value} (hv : P v) : (h.setItem place index v).Stores P := by
  have hitems (items : Array Value) (hi : ∀ w ∈ items, P w) :
      ∀ w ∈ if index < items.size then items.setIfInBounds index v
        else (items ++ Array.replicate (index - items.size) Value.undefined).push v, P w := by
    split
    · intro w hw
      rcases Array.mem_or_eq_of_mem_setIfInBounds hw with hw | rfl
      · exact hi w hw
      · exact hv
    · refine forall_mem_push (fun w hw => ?_) hv
      rcases Array.mem_append.1 hw with hw | hw
      · exact hi w hw
      · exact (Array.eq_of_mem_replicate hw) ▸ hundefined
  exact ⟨forall_mem_modify hh.arrays _ hitems, hh.objects, hh.elements⟩

theorem setField (hh : h.Stores P) (place : ObjectId) (name : String) {v : Value} (hv : P v) :
    (h.setField place name v).Stores P :=
  ⟨hh.arrays, forall_mem_modify hh.objects _ fun _ hf => Fields.of_insert hf name hv, hh.elements⟩

theorem modifyElement (hh : h.Stores P) (index : Nat) {change : Element → Element}
    (hchange : ∀ e, (∀ p ∈ e.attributes, P p.2) → ∀ p ∈ (change e).attributes, P p.2) :
    (h.modifyElement index change).Stores P :=
  ⟨hh.arrays, hh.objects, forall_mem_modify hh.elements _ hchange⟩

theorem withBoards (hh : h.Stores P) (boards : Array Board) : { h with boards }.Stores P :=
  ⟨hh.arrays, hh.objects, hh.elements⟩

theorem element (hh : h.Stores P) {index : Nat} {e : Element} (he : h.elements[index]? = some e) :
    ∀ p ∈ e.attributes, P p.2 :=
  hh.elements e (Array.mem_of_getElem? he)

theorem remove (hh : h.Stores P) (ref : HostRef) : (h.remove ref).Stores P := by
  cases ref with
  | element index => exact hh.modifyElement index fun _ he => he
  | _ => exact hh

end Heap.Stores

-- =========================================================== host objects

variable {C : Closure → Prop}

namespace Element

variable {e : Element}

theorem stored_attribute? (he : ∀ p ∈ e.attributes, p.2.Stored C) {name : String} {v : Value}
    (hv : e.attribute? name = some v) : v.Stored C := by
  have hbag {name : String} (hv : e.attributes.get? name = some v) : v.Stored C :=
    Fields.of_get? (P := Value.Stored C) he hv
  unfold attribute? at hv
  split at hv
  all_goals first
    | exact hbag hv
    | (split at hv
       · cases hv
         trivial
       · exact hbag hv)
    | (cases hv
       trivial)

/-- A coordinate or a number that is set is no attribute. -/
theorem attributes_setCoordinate {axis : Axis} {v : Value} {e' : Element}
    (h : e.setCoordinate axis v = .ok e') : e'.attributes = e.attributes := by
  unfold setCoordinate at h
  split at h
  · cases h
    cases axis <;> rfl
  · cases h

theorem attributes_setValue {v : Value} {e' : Element} (h : e.setValue v = .ok e') :
    e'.attributes = e.attributes := by
  unfold setValue at h
  split at h <;> cases h
  rfl

theorem stored_setProperty (he : ∀ p ∈ e.attributes, p.2.Stored C) {name text : String} {v : Value}
    (hv : v.Stored C) {e' : Element} (h : e.setProperty name v text = .ok e') :
    ∀ p ∈ e'.attributes, p.2.Stored C := by
  have hinsert := Fields.of_insert (P := Value.Stored C) he name hv
  unfold setProperty at h
  dsimp only at h
  split at h
  · split at h
    · exact attributes_setCoordinate h ▸ he
    · cases h
      exact hinsert
  · split at h
    · exact attributes_setCoordinate h ▸ he
    · cases h
      exact hinsert
  · cases h
    exact he
  · cases h
    split
    · exact he
    · exact hinsert
  · split at h
    · exact attributes_setValue h ▸ he
    · cases h
      exact hinsert
  · cases h
    exact hinsert

end Element

namespace Heap

variable {h h' : Heap}

/-- A change of an element that may be refused. -/
theorem Stores.changed {P : Value → Prop} (hh : h.Stores P) (index : Nat) {e : Element}
    (he : ∀ p ∈ e.attributes, P p.2) : (h.modifyElement index fun _ => e).Stores P :=
  hh.modifyElement index fun _ _ => he

theorem stored_select {board : Nat} {name : String} {v : Value} (hv : h.select board name = some v) :
    v.Stored C := by
  obtain ⟨_, -, rfl⟩ := Option.map_eq_some_iff.1 hv
  trivial

theorem stored_subObject {ref : HostRef} {name : String} {v : Value}
    (hv : h.subObject ref name = some v) : v.Stored C := by
  unfold subObject at hv
  split at hv
  · obtain ⟨_, -, rfl⟩ := Option.map_eq_some_iff.1 hv
    trivial
  · cases hv

theorem Stores.attribute? (hh : h.Stores (Value.Stored C)) {ref : HostRef} {name : String}
    {v : Value} (hv : h.attribute? ref name = some v) : v.Stored C := by
  unfold Heap.attribute? at hv
  split at hv
  · obtain ⟨e, he, hv⟩ := Option.bind_eq_some_iff.1 hv
    exact e.stored_attribute? (hh.element he) hv
  · split at hv <;> cases hv <;> trivial
  · cases hv

theorem stored_itemOf {ref : HostRef} {index : Nat} {v : Value} (hv : h.itemOf ref index = some v) :
    v.Stored C := by
  unfold itemOf at hv
  obtain ⟨_, -, hv⟩ := Option.bind_eq_some_iff.1 hv
  obtain ⟨_, -, hv⟩ := Option.bind_eq_some_iff.1 hv
  cases hv
  trivial

theorem Stores.setProperty (hh : h.Stores (Value.Stored C)) {ref : HostRef} {name : String}
    {v : Value} (hv : v.Stored C) (hset : h.setProperty ref name v = .ok h') :
    h'.Stores (Value.Stored C) := by
  unfold Heap.setProperty at hset
  split at hset
  · split at hset
    · rename_i index _ e he
      cases hchanged : e.setProperty name v (h.text v) with
      | error cause => rw [hchanged] at hset; cases hset
      | ok changed =>
          rw [hchanged] at hset
          cases hset
          exact hh.changed _ (e.stored_setProperty (hh.element he) hv hchanged)
    · cases hset
      exact hh
  · cases hset
  · cases hset
    exact hh

theorem Stores.setItemOf (hh : h.Stores (Value.Stored C)) {ref : HostRef} {place : Nat} {v : Value}
    (hset : h.setItemOf ref place v = .ok h') : h'.Stores (Value.Stored C) := by
  unfold Heap.setItemOf at hset
  dsimp only at hset
  split at hset
  · split at hset
    · split at hset
      · rename_i index axis _ _ e he _
        cases hchanged : e.setCoordinate axis v with
        | error cause => rw [hchanged] at hset; cases hset
        | ok changed =>
            rw [hchanged] at hset
            cases hset
            exact hh.changed _ (Element.attributes_setCoordinate hchanged ▸ hh.element he)
      · cases hset
    · cases hset
  · cases hset

-- ============================================================== boards kept

/-- A heap later on, with the same elements on its boards. -/
structure Still (h h' : Heap) : Prop where
  boards : h'.boards = h.boards
  elements : h.elements.size ≤ h'.elements.size

namespace Still

theorem refl (h : Heap) : h.Still h := ⟨rfl, Nat.le_refl _⟩

theorem trans {h₁ h₂ h₃ : Heap} (h : h₁.Still h₂) (h' : h₂.Still h₃) : h₁.Still h₃ :=
  ⟨h'.boards.trans h.boards, Nat.le_trans h.elements h'.elements⟩

theorem modifyElement (h : Heap) (index : Nat) (change : Element → Element) :
    h.Still (h.modifyElement index change) :=
  ⟨rfl, Nat.le_of_eq Array.size_modify.symm⟩

theorem remove (h : Heap) (ref : HostRef) : h.Still (h.remove ref) := by
  cases ref with
  | element index => exact modifyElement h index _
  | _ => exact .refl h

theorem of_touches (htouches : h.Touches h') : h.Still h' := by
  rcases htouches with rfl | ⟨index, change, rfl, -⟩
  · exact .refl _
  · exact modifyElement h index change

theorem setProperty {ref : HostRef} {name : String} {v : Value}
    (hset : h.setProperty ref name v = .ok h') : h.Still h' :=
  of_touches (touches_setProperty hset)

theorem setItemOf {ref : HostRef} {place : Nat} {v : Value}
    (hset : h.setItemOf ref place v = .ok h') : h.Still h' :=
  of_touches (touches_setItemOf hset)

theorem callMethod {ref : HostRef} {method : String} {args : List Value} {v : Value}
    (hcall : h.callMethod ref method args = .ok (v, h')) : h.Still h' :=
  of_touches (touches_callMethod hcall)

end Still

-- ============================================================ what a host gives

/-- What a host gives: a stored value, and a heap of such. -/
def Gives (C : Closure → Prop) {ε : Type} (answer : Except ε (Value × Heap)) : Prop :=
  ∀ v h', answer = .ok (v, h') → v.Stored C ∧ h'.Stores (Value.Stored C)

theorem gives_error {ε : Type} (cause : ε) : Gives C (.error cause) := fun _ _ h => nomatch h

theorem Stores.gives {ε : Type} (hh : h.Stores (Value.Stored C)) {v : Value} (hv : v.Stored C) :
    Gives C (.ok (v, h) : Except ε (Value × Heap)) := by
  rintro _ _ ⟨⟩
  exact ⟨hv, hh⟩

/-- An element is changed, but for its attributes. -/
theorem Stores.moved {ε : Type} (hh : h.Stores (Value.Stored C)) (index : Nat)
    {change : Element → Element} (hchange : ∀ e, (change e).attributes = e.attributes) :
    Gives C (.ok (.undefined, h.modifyElement index change) : Except ε (Value × Heap)) :=
  (hh.modifyElement index fun e he => hchange e ▸ he).gives trivial

theorem Stores.callElement (hh : h.Stores (Value.Stored C)) (index : Nat) {e : Element}
    (he : ∀ p ∈ e.attributes, p.2.Stored C) (method : String) (args : List Value) :
    Gives C (h.callElement index e method args) := by
  unfold Heap.callElement
  dsimp only
  split
  · exact hh.gives trivial
  · exact hh.gives trivial
  · split
    · exact hh.gives trivial
    · exact gives_error _
  · split
    · exact hh.moved index fun _ => rfl
    · exact gives_error _
  · cases h.segmentLength e with
    | error cause => exact gives_error cause
    | ok x => exact hh.gives trivial
  · split
    · exact hh.gives trivial
    · exact gives_error _
  · split
    · cases hset : e.setValue (args.headD .undefined) with
      | error cause => exact gives_error cause
      | ok changed =>
          exact (hh.changed _ (Element.attributes_setValue hset ▸ he)).gives trivial
    · exact gives_error _
  · exact hh.moved index fun _ => rfl
  · exact gives_error _

theorem Stores.callMethod (hh : h.Stores (Value.Stored C)) (ref : HostRef) (method : String)
    (args : List Value) : Gives C (h.callMethod ref method args) := by
  unfold Heap.callMethod
  split
  · split
    · rename_i he
      exact hh.callElement _ (hh.element he) method args
    · exact gives_error _
  · split
    · dsimp only
      refine hh.gives ?_
      cases hv : h.select _ _ with
      | none => trivial
      | some v => exact stored_select hv
    · exact gives_error _
  · exact gives_error _

-- ================================================================ creators

theorem stored_attributeBag {attributes : Fields} (ha : ∀ p ∈ attributes, p.2.Stored C) :
    ∀ p ∈ attributeBag attributes, p.2.Stored C := by
  suffices hfold : ∀ bag : Fields, (∀ p ∈ bag, p.2.Stored C) →
      ∀ p ∈ attributes.foldl (fun bag p =>
        if p.1 = "name" then bag else Fields.insert (lowercase p.1) p.2 bag) bag, p.2.Stored C from
    hfold [] (List.forall_mem_nil _)
  induction attributes with
  | nil => exact fun _ hbag => hbag
  | cons field fields ih =>
      obtain ⟨hfield, hfields⟩ := List.forall_mem_cons.1 ha
      refine fun bag hbag => ih hfields _ ?_
      dsimp only
      split
      · exact hbag
      · exact Fields.of_insert (P := Value.Stored C) hbag _ hfield

theorem Stores.addElement (hh : h.Stores (Value.Stored C)) (board : Nat) {made : Blueprint}
    (hlabel : ∀ label, made.label = some label → label.attributes = []) {attributes : Fields}
    (ha : ∀ p ∈ attributes, p.2.Stored C) :
    (h.addElement board made attributes).1.Stored C ∧
      (h.addElement board made attributes).2.Stores (Value.Stored C) := by
  have hnew {h : Heap} (hh : h.Stores (Value.Stored C)) (label : Option HostRef) :
      (h.newElement { made.element with label, attributes := attributeBag attributes }).2.Stores
        (Value.Stored C) :=
    hh.newElement (stored_attributeBag ha)
  unfold Heap.addElement
  cases hmade : made.label with
  | none => exact ⟨trivial, (hnew hh none).withBoards _⟩
  | some label =>
      have hbehind : (h.newElement label).2.Stores (Value.Stored C) :=
        hh.newElement (hlabel label hmade ▸ List.forall_mem_nil _)
      exact ⟨trivial, (hnew hbehind _).withBoards _⟩

theorem Stores.create (hh : h.Stores (Value.Stored C)) (board : Nat) (kind : String)
    (parents : List Value) {attributes : Fields} (ha : ∀ p ∈ attributes, p.2.Stored C) :
    Gives C (h.create board kind parents attributes) := by
  have hmade (name : String) : Gives C (h.make kind (h.nextId board) name parents >>= fun made =>
      pure (h.addElement board made attributes)) := by
    cases hmade : h.make kind (h.nextId board) name parents with
    | error cause => exact gives_error cause
    | ok made =>
        rintro _ _ ⟨⟩
        exact hh.addElement board (attributes_of_make hmade) ha
  unfold Heap.create
  exact hmade _

end Heap

theorem Heap.Stores.invoke {h : Heap} (hh : h.Stores (Value.Stored C)) (host : Host) (session : Nat)
    (name : String) (parents : List Value) {attributes : Fields}
    (ha : ∀ p ∈ attributes, p.2.Stored C) :
    Gives C (host.invoke h session name parents attributes) := by
  unfold Host.invoke
  split
  · exact hh.create _ name parents ha
  · exact gives_error _

theorem Host.stored_select {host : Host} {h : Heap} {name : String} {v : Value}
    (hv : host.select h name = some v) : v.Stored C := by
  obtain ⟨board, -, hv⟩ := List.exists_of_findSome?_eq_some hv
  exact Heap.stored_select hv

theorem Host.stored_sessionObject {host : Host} {session : Nat} {v : Value}
    (hv : host.sessionObject session = some v) : v.Stored C := by
  obtain ⟨_, -, rfl⟩ := Option.map_eq_some_iff.1 hv
  trivial

end BoardScript
