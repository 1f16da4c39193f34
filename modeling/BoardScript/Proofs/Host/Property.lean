/-
Properties of elements that are written and read back. A write goes by the
name in lower case and ends at a coordinate, the name, the text or the
number of the element, or among its attributes; behind it the attribute of
that name holds what was written (`Element.attribute?_setProperty`), as text
or within the bounds of a slider where the element keeps it so.

A read asks for methods first, by the name as it is spelled. So it gives
what was written back just if the element has no method of that name.
-/
import BoardScript.Run.Machine

namespace BoardScript

@[simp] theorem Fields.get?_insert_self (name : String) (value : Value) (fields : Fields) :
    (insert name value fields).get? name = some value := by
  induction fields with
  | nil => simp [insert, get?]
  | cons field rest ih =>
      obtain ⟨other, old⟩ := field
      rw [insert]
      split
      · simp [get?]
      split
      · simp [get?]
      · rename_i hne _
        rw [get?, List.lookup_cons, beq_false_of_ne hne]
        exact ih

-- ================================================================ elements

namespace Element

variable {e changed : Element} {name text : String} {value : Value}

/-- An element later on: what it is, the label that came with it and whether
it was removed have not changed. -/
structure Same (e changed : Element) : Prop where
  id : changed.id = e.id
  kind : changed.kind = e.kind
  label : changed.label = e.label
  removed : changed.removed = e.removed

theorem Same.refl (e : Element) : e.Same e := ⟨rfl, rfl, rfl, rfl⟩

theorem same_setCoordinate {axis : Axis} (h : e.setCoordinate axis value = .ok changed) :
    e.Same changed := by
  unfold setCoordinate at h
  split at h <;> cases h
  cases axis <;> exact ⟨rfl, rfl, rfl, rfl⟩

theorem same_setValue (h : e.setValue value = .ok changed) : e.Same changed := by
  unfold setValue at h
  split at h <;> cases h
  exact ⟨rfl, rfl, rfl, rfl⟩

/-- Setting a property leaves an element what it is. -/
theorem same_setProperty (h : e.setProperty name value text = .ok changed) : e.Same changed := by
  unfold setProperty at h
  dsimp only at h
  split at h
  case h_1 | h_2 =>
    split at h
    · exact same_setCoordinate h
    · cases h
      exact ⟨rfl, rfl, rfl, rfl⟩
  case h_3 | h_6 =>
    cases h
    exact ⟨rfl, rfl, rfl, rfl⟩
  case h_4 =>
    cases h
    split <;> exact ⟨rfl, rfl, rfl, rfl⟩
  case h_5 =>
    split at h
    · exact same_setValue h
    · cases h
      exact ⟨rfl, rfl, rfl, rfl⟩

/-- What an element keeps of a value that a property is set to: its name and
the text of a text element as text, the number of a slider within its
bounds, all else as it is. -/
def kept (e : Element) (name : String) (value : Value) (text : String) : Value :=
  if name = "name" ∨ name = "text" ∧ e.kind = .text then .string text
  else match value with
    | .number x => if name = "value" ∧ e.kind = .slider then .number (e.clamp x) else .number x
    | other => other

theorem kept_eq_self (htext : ¬(name = "name" ∨ name = "text" ∧ e.kind = .text))
    (hvalue : ¬(name = "value" ∧ e.kind = .slider)) : e.kept name value text = value := by
  unfold kept
  rw [if_neg htext]
  split
  · rw [if_neg hvalue]
  · rfl

/-- A coordinate can be set to a number and then is that number. -/
theorem coordinate_setCoordinate {axis : Axis} (h : e.setCoordinate axis value = .ok changed) :
    value = .number (changed.coordinate axis) := by
  unfold setCoordinate at h
  split at h <;> cases h
  cases axis <;> rfl

/-- A property that is set is an attribute then, unless it is one of those
that say what the element is. -/
theorem attribute?_setProperty (hid : name ≠ "id") (htype : name ≠ "type")
    (h : e.setProperty name value text = .ok changed) :
    changed.attribute? name = some (e.kept name value text) := by
  unfold setProperty at h
  dsimp only at h
  split at h
  case h_1 | h_2 =>
    rw [kept_eq_self (by simp) (by simp)]
    split at h
    · have hposition : changed.hasPosition = true := by
        rwa [hasPosition, (same_setCoordinate h).kind]
      simp [attribute?, hposition, coordinate_setCoordinate h, coordinate]
    · cases h
      simp_all [attribute?, hasPosition]
  case h_3 =>
    cases h
    rfl
  case h_4 =>
    cases h
    by_cases hkind : e.kind = .text
    · simp [attribute?, kept, hkind]
    · simp [attribute?, kept_eq_self, hkind]
  case h_5 =>
    split at h
    · unfold setValue at h
      split at h <;> cases h
      simp [attribute?, kept, *]
    · cases h
      simp [attribute?, kept_eq_self, *]
  case h_6 =>
    cases h
    rw [kept_eq_self (by simp_all) (by simp_all)]
    simp [attribute?, *]

/-- The methods of an element are those of its kind. -/
theorem methodAlias_of_kind {other : Element} (h : other.kind = e.kind) (name : String) :
    other.methodAlias name = e.methodAlias name := by
  unfold methodAlias
  rw [h]

end Element

-- ================================================================ machines

theorem lowercase_label : lowercase "label" = "label" := by decide

section

variable {m n : Machine} {index : Nat} {e changed : Element} {name : String} {value : Value}
  {span : Span}

/-- A property of an element that was written without an error can be
written, and of the machine nothing but the element has changed. -/
theorem exists_of_setProperty (he : m.heap.elements[index]? = some e)
    (h : setProperty (.host (.element index)) name value span m = .ok () n) :
    Heap.isReadOnly (.element index) (lowercase name) = false ∧ ∃ changed,
      e.setProperty (lowercase name) value (m.heap.text value) = .ok changed ∧
      n = { m with heap := m.heap.modifyElement index fun _ => changed } := by
  unfold setProperty at h
  dsimp only at h
  split at h
  · cases h
  · rename_i hwritable
    refine ⟨by simpa using hwritable, ?_⟩
    unfold changeHeap Heap.setProperty at h
    simp only [he] at h
    cases hset : e.setProperty (lowercase name) value (m.heap.text value) with
    | error cause =>
        rw [hset] at h
        cases h
    | ok changed =>
        rw [hset] at h
        cases h
        exact ⟨changed, rfl, rfl⟩

/-- Reading from an element of which neither a label nor a method is meant
reads an attribute. -/
theorem getProperty_element (he : m.heap.elements[index]? = some e) (hlabel : name ≠ "label")
    (hattribute : e.attribute? (lowercase name) = some value) :
    getProperty (.host (.element index)) name span m
      = .ok (match e.methodAlias name with
        | some method => .method (.element index) method
        | none => value) m := by
  have hsub : m.heap.subObject (.element index) name = none := by
    unfold Heap.subObject
    split
    · exact absurd rfl hlabel
    · rfl
  have halias : m.heap.methodAlias (.element index) name = e.methodAlias name := by
    rw [Heap.methodAlias, he]
    rfl
  have hread : m.heap.attribute? (.element index) (lowercase name) = some value := by
    rw [Heap.attribute?, he]
    exact hattribute
  have hget (k : Machine → Eval Value) : (MonadState.get >>= k) m = k m m := rfl
  rw [getProperty, hget]
  simp only [hsub, halias, hread]
  cases e.methodAlias name <;> rfl

/-- What was written to a property of an element can be read back at once,
under any spelling of its name: the value itself, for the name and for the
text of a text element its text, for the number of a slider the number
within its bounds. The one exception are spellings that are methods of the
element, which are read as the method. What they hide is an attribute all
the same. -/
theorem read_behind_write (he : m.heap.elements[index]? = some e)
    (hset : setProperty (.host (.element index)) name value span m = .ok () n) :
    let kept := e.kept (lowercase name) value (m.heap.text value)
    n.heap.attribute? (.element index) (lowercase name) = some kept ∧
      ∀ spelling, lowercase spelling = lowercase name → ∀ again,
        getProperty (.host (.element index)) spelling again n
          = .ok (match e.methodAlias spelling with
            | some method => .method (.element index) method
            | none => kept) n := by
  obtain ⟨hwritable, changed, hchanged, rfl⟩ := exists_of_setProperty he hset
  simp only [Heap.isReadOnly, Bool.or_eq_false_iff, decide_eq_false_iff_not] at hwritable
  obtain ⟨⟨hid, htype⟩, hlabel⟩ := hwritable
  have hattribute := Element.attribute?_setProperty hid htype hchanged
  have hbehind : (m.heap.modifyElement index fun _ => changed).elements[index]? = some changed := by
    simp [Heap.modifyElement, Array.getElem?_modify, he]
  refine ⟨by rw [Heap.attribute?, hbehind]; exact hattribute, fun spelling hspelling again => ?_⟩
  have hlabel' : spelling ≠ "label" := by
    rintro rfl
    exact hlabel (hspelling ▸ lowercase_label)
  rw [getProperty_element hbehind hlabel' (by rw [hspelling]; exact hattribute),
    Element.methodAlias_of_kind (Element.same_setProperty hchanged).kind]

/-- A machine with a point. -/
def Machine.withPoint : Machine where
  heap := { elements := #[{ id := "board_el1", kind := .point, name := "A" }] }

/-- The name of a point that is set to a truth value. -/
theorem read_behind_write_name :
    ∃ n, setProperty (.host (.element 0)) "Name" (.boolean true) ⟨0, 1⟩ .withPoint = .ok () n ∧
      getProperty (.host (.element 0)) "NAME" ⟨0, 1⟩ n = .ok (.string "true") n := by
  have hset : setProperty (.host (.element 0)) "Name" (.boolean true) ⟨0, 1⟩ .withPoint
      = .ok () { Machine.withPoint with heap := { elements :=
          #[{ id := "board_el1", kind := .point, name := "true" }] } } := rfl
  exact ⟨_, hset, (read_behind_write (e := { id := "board_el1", kind := .point, name := "A" }) rfl
    hset).2 "NAME" (by decide) ⟨0, 1⟩⟩

/-- The coordinate of a point that is set under the name of a method is
hidden by the method. -/
theorem coordinate_hidden_by_method :
    ∃ n, setProperty (.host (.element 0)) "X" (.number 5.0) ⟨0, 1⟩ .withPoint = .ok () n ∧
      getProperty (.host (.element 0)) "X" ⟨0, 1⟩ n = .ok (.method (.element 0) "X") n ∧
      getProperty (.host (.element 0)) "X" ⟨0, 1⟩ n ≠ .ok (.number 5.0) n :=
  ⟨_, rfl, rfl, fun h => nomatch h⟩

end

end BoardScript
