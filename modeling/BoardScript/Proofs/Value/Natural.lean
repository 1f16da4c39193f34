/-
What is done to values and to the heap does not depend on what a recoding
changes. Every operation commutes with recoding: done to recoded values on
a recoded heap it gives the recoded result. The text of a closure is that
of its literal, and two closures are the same if their identities are.
-/
import BoardScript.Proofs.Run.Recode

namespace BoardScript

variable {g : Recoding}

-- ================================================================== values

section

variable {α β : Type} [Recodable α] [Recodable β]

@[simp] theorem recode_closure (c : Closure) :
    recode g (Value.closure c) = .closure (g.closure c) := rfl
@[simp] theorem recode_number (x : Float) : recode g (Value.number x) = .number x := rfl
@[simp] theorem recode_string (text : String) : recode g (Value.string text) = .string text := rfl
@[simp] theorem recode_boolean (b : Bool) : recode g (Value.boolean b) = .boolean b := rfl
@[simp] theorem recode_array (place : ArrayId) : recode g (Value.array place) = .array place := rfl
@[simp] theorem recode_object (place : ObjectId) :
    recode g (Value.object place) = .object place := rfl
@[simp] theorem recode_builtin (b : Builtin) : recode g (Value.builtin b) = .builtin b := rfl
@[simp] theorem recode_creator (c : Creator) : recode g (Value.creator c) = .creator c := rfl
@[simp] theorem recode_math (f : MathFunction) : recode g (Value.math f) = .math f := rfl
@[simp] theorem recode_method (receiver : HostRef) (name : String) :
    recode g (Value.method receiver name) = .method receiver name := rfl
@[simp] theorem recode_host (ref : HostRef) : recode g (Value.host ref) = .host ref := rfl
@[simp] theorem recode_undefined : recode g Value.undefined = .undefined := rfl

@[simp] theorem recode_unit (x : Unit) : recode g x = x := rfl
@[simp] theorem recode_bool (x : Bool) : recode g x = x := rfl
@[simp] theorem recode_nat (x : Nat) : recode g x = x := rfl
@[simp] theorem recode_text (x : String) : recode g x = x := rfl
@[simp] theorem recode_float (x : Float) : recode g x = x := rfl
@[simp] theorem recode_pair (a : α) (b : β) : recode g (a, b) = (recode g a, recode g b) := rfl
@[simp] theorem recode_nil : recode g ([] : List α) = [] := rfl
@[simp] theorem recode_cons (a : α) (as : List α) :
    recode g (a :: as) = recode g a :: recode g as := rfl
@[simp] theorem recode_append (as bs : List α) :
    recode g (as ++ bs) = recode g as ++ recode g bs := List.map_append
@[simp] theorem recode_none : recode g (none : Option α) = none := rfl
@[simp] theorem recode_some (a : α) : recode g (some a) = some (recode g a) := rfl

@[simp] theorem recode_ok {ε : Type} (a : α) :
    recode g (.ok a : Except ε α) = .ok (recode g a) := rfl
@[simp] theorem recode_error {ε : Type} (e : ε) : recode g (.error e : Except ε α) = .error e := rfl

theorem recode_list (as : List α) : recode g as = as.map (recode g) := rfl

@[simp] theorem length_recode (as : List α) : (recode g as).length = as.length :=
  List.length_map _

@[simp] theorem getElem?_recode (as : List α) (i : Nat) : (recode g as)[i]? = recode g as[i]? :=
  List.getElem?_map

@[simp] theorem head?_recode (as : List α) : (recode g as).head? = recode g as.head? :=
  List.head?_map

@[simp] theorem size_recode (as : Array α) : (recode g as).size = as.size := Array.size_map

@[simp] theorem toList_recode (as : Array α) : (recode g as).toList = recode g as.toList :=
  Array.toList_map

@[simp] theorem toArray_recode (as : List α) : (recode g as).toArray = recode g as.toArray :=
  List.map_toArray.symm

@[simp] theorem array_getElem?_recode (as : Array α) (i : Nat) :
    (recode g as)[i]? = recode g as[i]? := Array.getElem?_map

theorem modify_recode (as : Array α) (i : Nat) {f f' : α → α}
    (hf : ∀ a, f' (recode g a) = recode g (f a)) :
    (recode g as).modify i f' = recode g (as.modify i f) := by
  refine Array.ext_getElem? fun j => ?_
  rw [Array.getElem?_modify, array_getElem?_recode, array_getElem?_recode, Array.getElem?_modify]
  split
  · cases as[j]? with
    | none => rfl
    | some a => exact congrArg some (hf a)
  · rfl

theorem getD_recode (as : List α) (i : Nat) (d : α) (hd : recode g d = d) :
    (recode g as).getD i d = recode g (as.getD i d) := by
  rw [List.getD_eq_getElem?_getD, List.getD_eq_getElem?_getD, getElem?_recode]
  cases as[i]? with
  | none => exact hd.symm
  | some a => rfl

theorem option_getD_recode (o : Option α) (d : α) (hd : recode g d = d) :
    (recode g o).getD d = recode g (o.getD d) := by
  cases o with
  | none => exact hd.symm
  | some a => rfl

@[simp] theorem isSome_recode (o : Option α) : (recode g o).isSome = o.isSome := by
  cases o <;> rfl

end

namespace Value

@[simp] theorem type_recode (v : Value) : (recode g v).type = v.type := by
  cases v <;> rfl

@[simp] theorem isCallable_recode (v : Value) : (recode g v).isCallable = v.isCallable := by
  rw [isCallable, type_recode, isCallable]

@[simp] theorem truthy_recode (v : Value) : (recode g v).truthy = v.truthy := by
  cases v <;> rfl

@[simp] theorem number?_recode (v : Value) : (recode g v).number? = v.number? := by
  cases v <;> rfl

@[simp] theorem same_recode (a b : Value) : (recode g a).same (recode g b) = a.same b := by
  cases a <;> cases b <;> simp [same]

@[simp] theorem place?_recode (v : Value) : Operators.place? (recode g v) = Operators.place? v := by
  rw [Operators.place?, number?_recode, Operators.place?]

end Value

-- ================================================================== fields

namespace Fields

@[simp] theorem lookup_recode (fields : List (String × Value)) (name : String) :
    (recode g fields).lookup name = recode g (fields.lookup name) := by
  induction fields with
  | nil => rfl
  | cons field fields ih =>
      obtain ⟨other, value⟩ := field
      simp only [recode_cons, recode_pair, recode_text, List.lookup_cons]
      split
      · rfl
      · exact ih

@[simp] theorem get?_recode (fields : Fields) (name : String) :
    Fields.get? (recode g fields) name = recode g (fields.get? name) :=
  lookup_recode fields name

@[simp] theorem insert_recode (name : String) (value : Value) (fields : Fields) :
    insert name (recode g value) (recode g fields) = recode g (insert name value fields) := by
  induction fields with
  | nil => rfl
  | cons field fields ih =>
      obtain ⟨other, old⟩ := field
      simp only [recode_cons, recode_pair, recode_text, insert, ih]
      split
      · rfl
      · split <;> rfl

@[simp] theorem ofPairs_recode (pairs : List (String × Value)) :
    ofPairs (recode g pairs) = recode g (ofPairs pairs) := by
  have h : ∀ fields : Fields,
      (recode g pairs).foldl (fun fields p => insert p.1 p.2 fields) (recode g fields)
        = recode g (pairs.foldl (fun fields p => insert p.1 p.2 fields) fields) := by
    induction pairs with
    | nil => exact fun _ => rfl
    | cons pair pairs ih =>
        intro fields
        rw [recode_cons, List.foldl_cons, List.foldl_cons, ← ih, ← insert_recode]
        rfl
  exact h []

end Fields

-- ==================================================================== heap

namespace Heap

@[simp] theorem arrays_recode (h : Heap) : (recode g h).arrays = recode g h.arrays := rfl
@[simp] theorem objects_recode (h : Heap) : (recode g h).objects = recode g h.objects := rfl
@[simp] theorem elements_recode (h : Heap) : (recode g h).elements = recode g h.elements := rfl
@[simp] theorem boards_recode (h : Heap) : (recode g h).boards = h.boards := rfl

@[simp] theorem array_recode (h : Heap) (place : ArrayId) :
    (recode g h).array place = recode g (h.array place) := by
  simp only [array, Array.getD_eq_getD_getElem?, arrays_recode, array_getElem?_recode]
  exact option_getD_recode _ _ (Array.map_empty)

@[simp] theorem object_recode (h : Heap) (place : ObjectId) :
    (recode g h).object place = recode g (h.object place) := by
  simp only [object, Array.getD_eq_getD_getElem?, objects_recode, array_getElem?_recode]
  exact option_getD_recode _ _ rfl

@[simp] theorem depth_recode (h : Heap) : (recode g h).depth = h.depth := by
  simp [depth]

@[simp] theorem hostName_recode (h : Heap) (ref : HostRef) :
    (recode g h).hostName ref = h.hostName ref := by
  cases ref with
  | element index =>
      simp only [hostName, elements_recode, array_getElem?_recode]
      cases h.elements[index]? <;> rfl
  | board index => rfl
  | inert id name => rfl

@[simp] theorem hostId_recode (h : Heap) (ref : HostRef) :
    (recode g h).hostId ref = h.hostId ref := by
  cases ref with
  | element index =>
      simp only [hostId, elements_recode, array_getElem?_recode]
      cases h.elements[index]? <;> rfl
  | board index => rfl
  | inert id name => rfl

/-- The text of a value says nothing of what a recoding changes. -/
theorem render_recode (h : Heap) (fuel : Nat) (quoted : Bool) (v : Value) :
    (recode g h).render fuel quoted (recode g v) = h.render fuel quoted v := by
  induction fuel generalizing quoted v with
  | zero =>
      cases v <;> cases quoted <;> simp [render]
  | succ fuel ih =>
      have hitems (items : List Value) :
          (recode g items).map ((recode g h).render fuel true)
            = items.map (h.render fuel true) := by
        rw [recode_list, List.map_map]
        exact List.map_congr_left fun v _ => ih true v
      have hfields (fields : Fields) :
          (recode g fields).map (fun p => p.1 ++ ": " ++ (recode g h).render fuel true p.2)
            = fields.map fun p => p.1 ++ ": " ++ h.render fuel true p.2 := by
        rw [recode_list, List.map_map]
        exact List.map_congr_left fun p _ => by
          rw [Function.comp_apply, ← ih true p.2]
          rfl
      cases v with
      | array place => simp only [recode_array, render, array_recode, toList_recode, hitems]
      | object place =>
          simp only [recode_object, render, object_recode]
          cases hobject : h.object place with
          | nil => rfl
          | cons field fields =>
              exact congrArg (fun texts => "<< " ++ ", ".intercalate texts ++ " >>")
                (hfields (field :: fields))
      | _ => cases quoted <;> simp [render]

@[simp] theorem text_recode (h : Heap) (v : Value) : (recode g h).text (recode g v) = h.text v := by
  rw [text, depth_recode, render_recode, text]

@[simp] theorem debug_recode (h : Heap) (v : Value) :
    (recode g h).debug (recode g v) = h.debug v := by
  rw [debug, depth_recode, render_recode, debug]

@[simp] theorem newArray_recode (h : Heap) (items : Array Value) :
    (recode g h).newArray (recode g items) = recode g (h.newArray items) := by
  simp [newArray, recode]

@[simp] theorem newObject_recode (h : Heap) (fields : Fields) :
    (recode g h).newObject (recode g fields) = recode g (h.newObject fields) := by
  simp [newObject, recode]

@[simp] theorem setItem_recode (h : Heap) (place : ArrayId) (index : Nat) (value : Value) :
    (recode g h).setItem place index (recode g value) = recode g (h.setItem place index value) := by
  let write (value : Value) (items : Array Value) : Array Value :=
    if index < items.size then items.setIfInBounds index value
    else (items ++ Array.replicate (index - items.size) Value.undefined).push value
  have hwrite (items : Array Value) :
      write (recode g value) (recode g items) = recode g (write value items) := by
    simp only [write, size_recode]
    split <;> simp [recode]
  exact congrArg (Heap.mk · _ _ _) (modify_recode h.arrays place.index hwrite)

@[simp] theorem setField_recode (h : Heap) (place : ObjectId) (name : String) (value : Value) :
    (recode g h).setField place name (recode g value) = recode g (h.setField place name value) := by
  exact congrArg (Heap.mk _ · _ _)
    (modify_recode h.objects place.index (Fields.insert_recode name value))

end Heap

-- ================================================================ elements

namespace Element

@[simp] theorem id_recode (e : Element) : (recode g e).id = e.id := rfl
@[simp] theorem kind_recode (e : Element) : (recode g e).kind = e.kind := rfl
@[simp] theorem name_recode (e : Element) : (recode g e).name = e.name := rfl
@[simp] theorem x_recode (e : Element) : (recode g e).x = e.x := rfl
@[simp] theorem y_recode (e : Element) : (recode g e).y = e.y := rfl
@[simp] theorem endpoints_recode (e : Element) : (recode g e).endpoints = e.endpoints := rfl
@[simp] theorem text_recode (e : Element) : (recode g e).text = e.text := rfl
@[simp] theorem label_recode (e : Element) : (recode g e).label = e.label := rfl
@[simp] theorem value_recode (e : Element) : (recode g e).value = e.value := rfl
@[simp] theorem removed_recode (e : Element) : (recode g e).removed = e.removed := rfl
@[simp] theorem attributes_recode (e : Element) :
    (recode g e).attributes = recode g e.attributes := rfl
@[simp] theorem hasPosition_recode (e : Element) : (recode g e).hasPosition = e.hasPosition := rfl
@[simp] theorem coordinate_recode (e : Element) (axis : Axis) :
    (recode g e).coordinate axis = e.coordinate axis := by cases axis <;> rfl
@[simp] theorem methodAlias_recode (e : Element) (name : String) :
    (recode g e).methodAlias name = e.methodAlias name := rfl

@[simp] theorem attribute?_recode (e : Element) (name : String) :
    (recode g e).attribute? name = recode g (e.attribute? name) := by
  unfold attribute?
  split <;> simp <;> split <;> simp

@[simp] theorem setCoordinate_recode (e : Element) (axis : Axis) (value : Value) :
    (recode g e).setCoordinate axis (recode g value) = recode g (e.setCoordinate axis value) := by
  cases value <;> cases axis <;> rfl

@[simp] theorem setValue_recode (e : Element) (value : Value) :
    (recode g e).setValue (recode g value) = recode g (e.setValue value) := by
  cases value <;> rfl

@[simp] theorem setProperty_recode (e : Element) (name : String) (value : Value) (text : String) :
    (recode g e).setProperty name (recode g value) text
      = recode g (e.setProperty name value text) := by
  unfold setProperty
  simp only [hasPosition_recode, setCoordinate_recode, kind_recode, setValue_recode,
    attributes_recode, Fields.insert_recode]
  split
  all_goals first
    | rfl
    | split <;> rfl

end Element

namespace Heap

theorem modifyElement_recode (h : Heap) (index : Nat) {f f' : Element → Element}
    (hf : ∀ e, f' (recode g e) = recode g (f e)) :
    (recode g h).modifyElement index f' = recode g (h.modifyElement index f) :=
  congrArg (Heap.mk _ _ · _) (modify_recode h.elements index hf)

/-- What a host answers that has changed an element. -/
theorem modified_recode (h : Heap) (index : Nat) {f f' : Element → Element}
    (hf : ∀ e, f' (recode g e) = recode g (f e)) :
    (.ok (.undefined, (recode g h).modifyElement index f') : Except HostError (Value × Heap))
      = recode g (.ok (.undefined, h.modifyElement index f)) :=
  congrArg (fun h => (Except.ok (Value.undefined, h) : Except HostError (Value × Heap)))
    (modifyElement_recode h index hf)

@[simp] theorem liveElements_recode (h : Heap) (board : Nat) :
    (recode g h).liveElements board = recode g (h.liveElements board) := by
  simp only [liveElements, boards_recode, elements_recode, array_getElem?_recode, recode_list,
    List.map_filterMap]
  congr 1
  funext index
  cases h.elements[index]? with
  | none => rfl
  | some e =>
      simp only [recode_some, Element.removed_recode]
      split <;> rfl

@[simp] theorem select_recode (h : Heap) (board : Nat) (name : String) :
    (recode g h).select board name = h.select board name := by
  simp only [select, liveElements_recode, recode_list, ← List.map_reverse, List.find?_map,
    Option.map_map]
  rfl

@[simp] theorem coordinate_recode (h : Heap) (ref : HostRef) (axis : Axis) :
    (recode g h).coordinate ref axis = h.coordinate ref axis := by
  cases ref with
  | element index =>
      simp only [coordinate, elements_recode, array_getElem?_recode]
      cases h.elements[index]? <;> simp
  | board index => rfl
  | inert id name => rfl

@[simp] theorem pair?_recode (h : Heap) (v : Value) : (recode g h).pair? (recode g v) = h.pair? v := by
  cases v with
  | array place =>
      simp only [recode_array, pair?, array_recode, array_getElem?_recode]
      cases (h.array place)[0]? <;> cases (h.array place)[1]? <;> simp
  | _ => simp [pair?]

@[simp] theorem subObject_recode (h : Heap) (ref : HostRef) (name : String) :
    (recode g h).subObject ref name = h.subObject ref name := by
  unfold subObject
  split
  · simp only [elements_recode, array_getElem?_recode]
    cases h.elements[‹Nat›]? <;> rfl
  · rfl

@[simp] theorem methodAlias_recode (h : Heap) (ref : HostRef) (name : String) :
    (recode g h).methodAlias ref name = h.methodAlias ref name := by
  cases ref with
  | element index =>
      simp only [methodAlias, elements_recode, array_getElem?_recode]
      cases h.elements[index]? <;> rfl
  | board index => rfl
  | inert id name => rfl

@[simp] theorem segmentLength_recode (h : Heap) (e : Element) :
    (recode g h).segmentLength (recode g e) = h.segmentLength e := by
  unfold segmentLength
  simp only [Element.endpoints_recode]
  split
  · rename_i a b _
    rw [← recode_host (g := g) a, ← recode_host (g := g) b, pair?_recode, pair?_recode]
    rfl
  · rfl

theorem head?_pair?_recode (h : Heap) (args : List Value) :
    (recode g args).head?.bind (recode g h).pair? = args.head?.bind h.pair? := by
  cases args <;> simp

theorem head?_text_recode (h : Heap) (args : List Value) :
    (recode g args).head?.map (recode g h).text = args.head?.map h.text := by
  cases args <;> simp

@[simp] theorem callElement_recode (h : Heap) (index : Nat) (e : Element) (method : String)
    (args : List Value) :
    (recode g h).callElement index (recode g e) method (recode g args)
      = recode g (h.callElement index e method args) := by
  unfold callElement
  simp only [head?_pair?_recode, head?_text_recode, segmentLength_recode, Element.kind_recode]
  split
  · rfl
  · rfl
  · split <;> rfl
  · split
    · exact modified_recode h index fun e => rfl
    · rfl
  · cases h.segmentLength e <;> rfl
  · split <;> rfl
  · split
    · rw [show (recode g args).headD .undefined = recode g (args.headD .undefined) by
        cases args <;> rfl, Element.setValue_recode]
      cases e.setValue (args.headD .undefined) with
      | error cause => rfl
      | ok changed => exact modified_recode h index fun e => rfl
    · rfl
  · exact modified_recode h index fun e => rfl
  · rfl

@[simp] theorem callMethod_recode (h : Heap) (ref : HostRef) (method : String)
    (args : List Value) :
    (recode g h).callMethod ref method (recode g args)
      = recode g (h.callMethod ref method args) := by
  cases ref with
  | element index =>
      simp only [callMethod, elements_recode, array_getElem?_recode]
      cases h.elements[index]? with
      | none => rfl
      | some e => exact callElement_recode h index e method args
  | board board =>
      simp only [callMethod, head?_text_recode, select_recode, hostName_recode]
      split
      · have hselected : recode g ((h.select board ((args.head?.map h.text).getD "")).getD .undefined)
            = (h.select board ((args.head?.map h.text).getD "")).getD .undefined := by
          unfold select
          cases List.find? _ _ <;> rfl
        rw [recode_ok, recode_pair, hselected]
      · rfl
  | inert id name => rfl

@[simp] theorem attribute?_recode (h : Heap) (ref : HostRef) (name : String) :
    (recode g h).attribute? ref name = recode g (h.attribute? ref name) := by
  cases ref with
  | element index =>
      simp only [attribute?, elements_recode, array_getElem?_recode]
      cases h.elements[index]? with
      | none => rfl
      | some e => exact Element.attribute?_recode e name
  | board board =>
      simp only [attribute?, hostName_recode, liveElements_recode, length_recode]
      split <;> rfl
  | inert id name => rfl

@[simp] theorem setProperty_recode (h : Heap) (ref : HostRef) (name : String) (value : Value) :
    (recode g h).setProperty ref name (recode g value)
      = recode g (h.setProperty ref name value) := by
  cases ref with
  | element index =>
      simp only [setProperty, elements_recode, array_getElem?_recode, text_recode]
      cases h.elements[index]? with
      | none => rfl
      | some e =>
          simp only [recode_some, Element.setProperty_recode]
          cases e.setProperty name value (h.text value) with
          | error cause => rfl
          | ok changed => exact congrArg Except.ok (modifyElement_recode h index fun e => rfl)
  | board board => simp [setProperty]
  | inert id name => rfl

@[simp] theorem itemOf_recode (h : Heap) (ref : HostRef) (index : Nat) :
    (recode g h).itemOf ref index = recode g (h.itemOf ref index) := by
  simp only [itemOf, coordinate_recode]
  cases Axis.ofPlace? index with
  | none => rfl
  | some axis => cases hc : h.coordinate ref axis <;> simp [hc]

@[simp] theorem setItemOf_recode (h : Heap) (ref : HostRef) (place : Nat) (value : Value) :
    (recode g h).setItemOf ref place (recode g value)
      = recode g (h.setItemOf ref place value) := by
  unfold setItemOf
  simp only [hostName_recode, elements_recode, array_getElem?_recode]
  split
  · rename_i index axis _
    cases h.elements[index]? with
    | none => rfl
    | some e =>
        simp only [recode_some, Element.hasPosition_recode, Element.setCoordinate_recode]
        split
        · cases e.setCoordinate axis value with
          | error cause => rfl
          | ok changed => exact congrArg Except.ok (modifyElement_recode h index fun e => rfl)
        · rfl
  · rfl

@[simp] theorem remove_recode (h : Heap) (ref : HostRef) :
    (recode g h).remove ref = recode g (h.remove ref) := by
  cases ref with
  | element index => exact modifyElement_recode h index fun e => rfl
  | board index => rfl
  | inert id name => rfl

-- ================================================================== boards

@[simp] theorem nextId_recode (h : Heap) (board : Nat) :
    (recode g h).nextId board = h.nextId board := rfl

@[simp] theorem makePoint_recode (h : Heap) (id name : String) (parents : List Value) :
    (recode g h).makePoint id name (recode g parents) = h.makePoint id name parents := by
  rcases parents with _ | ⟨a, _ | ⟨b, _ | ⟨c, rest⟩⟩⟩
  · rfl
  · simp [makePoint]
  · cases a <;> cases b <;> rfl
  · cases a <;> cases b <;> rfl

@[simp] theorem makeSegment_recode (h : Heap) (id name : String) (parents : List Value) :
    (recode g h).makeSegment id name (recode g parents) = h.makeSegment id name parents := by
  rcases parents with _ | ⟨a, _ | ⟨b, _ | ⟨c, rest⟩⟩⟩
  · rfl
  · cases a <;> rfl
  · cases a <;> cases b <;> simp [makeSegment]
  · cases a <;> cases b <;> rfl

@[simp] theorem makeText_recode (h : Heap) (id name : String) (parents : List Value) :
    (recode g h).makeText id name (recode g parents) = h.makeText id name parents := by
  rcases parents with _ | ⟨x, _ | ⟨y, _ | ⟨content, _ | ⟨d, rest⟩⟩⟩⟩
  · rfl
  · rfl
  · rfl
  · cases x <;> cases y <;> simp [makeText]
  · rfl

@[simp] theorem makeSlider_recode (h : Heap) (id name : String) (parents : List Value) :
    (recode g h).makeSlider id name (recode g parents) = h.makeSlider id name parents := by
  rcases parents with _ | ⟨anchor, _ | ⟨other, _ | ⟨range, _ | ⟨d, rest⟩⟩⟩⟩
  · rfl
  · rfl
  · rfl
  · cases range with
    | array range =>
        simp only [makeSlider, recode_cons, recode_array, recode_nil, pair?_recode, array_recode,
          toList_recode]
        cases h.pair? anchor
        · rfl
        rcases (h.array range).toList with _ | ⟨a, _ | ⟨b, _ | ⟨c, _ | ⟨d, rest⟩⟩⟩⟩
        · rfl
        · cases a <;> rfl
        · cases a <;> cases b <;> rfl
        -- only behind a number does it matter what comes next
        all_goals
          cases a with
          | number a =>
              cases b with
              | number b => cases c <;> rfl
              | _ => rfl
          | _ => rfl
    | _ => rfl
  · cases range <;> rfl

@[simp] theorem make_recode (h : Heap) (kind id name : String) (parents : List Value) :
    (recode g h).make kind id name (recode g parents) = h.make kind id name parents := by
  simp only [make, makePoint_recode, makeSegment_recode, makeText_recode, makeSlider_recode]

/-- The label that comes with an element has no attributes. -/
theorem attributes_of_make {h : Heap} {kind id name : String} {parents : List Value}
    {made : Blueprint} (hmade : h.make kind id name parents = .ok made) :
    ∀ label, made.label = some label → label.attributes = [] := by
  unfold make at hmade
  split at hmade
  · simp only [makePoint] at hmade
    split at hmade
    · cases hmade
      exact fun label hlabel => by cases hlabel; rfl
    · cases hmade
  · unfold makeSegment at hmade
    split at hmade
    · split at hmade
      · cases hmade
        exact fun label hlabel => by cases hlabel
      · cases hmade
    · cases hmade
  · unfold makeText at hmade
    split at hmade
    · split at hmade
      · cases hmade
        exact fun label hlabel => by cases hlabel
      · cases hmade
    · cases hmade
  · unfold makeSlider at hmade
    split at hmade
    · split at hmade
      · split at hmade
        · cases hmade
          exact fun label hlabel => by cases hlabel
        · cases hmade
      · cases hmade
    · cases hmade
  · cases hmade

theorem recode_of_attributes {e : Element} (he : e.attributes = []) : recode g e = e := by
  cases e
  cases he
  rfl

@[simp] theorem newElement_recode (h : Heap) (e : Element) :
    (recode g h).newElement (recode g e) = recode g (h.newElement e) := by
  simp [newElement, recode]

@[simp] theorem attributeBag_recode (attributes : Fields) :
    attributeBag (recode g attributes) = recode g (attributeBag attributes) := by
  have hfold : ∀ bag : Fields,
      (recode g attributes).foldl (fun bag p =>
          if p.1 = "name" then bag else Fields.insert (lowercase p.1) p.2 bag) (recode g bag)
        = recode g (attributes.foldl (fun bag p =>
          if p.1 = "name" then bag else Fields.insert (lowercase p.1) p.2 bag) bag) := by
    induction attributes with
    | nil => exact fun _ => rfl
    | cons field fields ih =>
        intro bag
        obtain ⟨key, value⟩ := field
        rw [recode_cons, List.foldl_cons, List.foldl_cons, ← ih]
        simp only [recode_pair, recode_text]
        split
        · rfl
        · rw [Fields.insert_recode]
  exact hfold []

theorem addElement_recode (h : Heap) (board : Nat) {made : Blueprint} (attributes : Fields)
    (hlabel : ∀ label, made.label = some label → label.attributes = []) :
    (recode g h).addElement board made (recode g attributes)
      = recode g (h.addElement board made attributes) := by
  have hnew (h : Heap) (label : Option HostRef) :
      (recode g h).newElement { made.element with
        label, attributes := attributeBag (recode g attributes) }
        = recode g (h.newElement { made.element with
            label, attributes := attributeBag attributes }) := by
    rw [attributeBag_recode]
    exact newElement_recode h { made.element with label, attributes := attributeBag attributes }
  unfold addElement
  cases hmade : made.label with
  | none =>
      simp only [hnew]
      rfl
  | some label =>
      have hlabel' : (recode g h).newElement label = recode g (h.newElement label) := by
        rw [← newElement_recode, recode_of_attributes (hlabel label hmade)]
      simp only [hlabel']
      exact congrArg (fun p : Nat × Heap => (Value.host (.element p.1), { p.2 with
        boards := p.2.boards.modify board fun b => { b with elements := b.elements.push p.1 } }))
        (hnew _ _)

@[simp] theorem create_recode (h : Heap) (board : Nat) (kind : String) (parents : List Value)
    (attributes : Fields) :
    (recode g h).create board kind (recode g parents) (recode g attributes)
      = recode g (h.create board kind parents attributes) := by
  have hmade (name : String) :
      ((recode g h).make kind (h.nextId board) name (recode g parents) >>= fun made =>
          pure ((recode g h).addElement board made (recode g attributes)))
        = recode g (h.make kind (h.nextId board) name parents >>= fun made =>
          pure (h.addElement board made attributes)) := by
    rw [make_recode]
    cases hmade : h.make kind (h.nextId board) name parents with
    | error cause => rfl
    | ok made =>
        exact congrArg Except.ok (addElement_recode h board attributes (attributes_of_make hmade))
  simp only [create, nextId_recode, Fields.get?_recode]
  cases attributes.get? "name" with
  | none => exact hmade _
  | some value => cases value <;> exact hmade _

end Heap

namespace Host

@[simp] theorem invoke_recode (host : Host) (h : Heap) (session : Nat) (name : String)
    (parents : List Value) (attributes : Fields) :
    host.invoke (recode g h) session name (recode g parents) (recode g attributes)
      = recode g (host.invoke h session name parents attributes) := by
  unfold invoke
  cases host.boards[session]? with
  | none => rfl
  | some board => exact Heap.create_recode h board name parents attributes

@[simp] theorem selectSession_recode (host : Host) (h : Heap) (name : String) :
    host.selectSession (recode g h) name = host.selectSession h name := by
  simp [selectSession]

@[simp] theorem select_recode (host : Host) (h : Heap) (name : String) :
    host.select (recode g h) name = host.select h name := by
  simp [select]

/-- What a host finds is an element. -/
theorem exists_of_select {host : Host} {h : Heap} {name : String} {v : Value}
    (hv : host.select h name = some v) : ∃ ref, v = .host ref := by
  obtain ⟨board, -, hfound⟩ := List.exists_of_findSome?_eq_some hv
  obtain ⟨p, -, rfl⟩ := Option.map_eq_some_iff.1 hfound
  exact ⟨_, rfl⟩

end Host

end BoardScript
