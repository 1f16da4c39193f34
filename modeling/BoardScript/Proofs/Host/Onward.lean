/-
What becomes of the elements on a heap. Writing to an element and calling its
methods change that element at most, and not what it is (`Heap.Touches`). So
every element stays at its place with its identifier and its label, and is
removed only if it was asked to go (`Heap.Onward`). A creator adds one element
with the identifier that is next on its board, perhaps a label for it, and
touches nothing else (`Heap.Adds`).
-/
import BoardScript.Proofs.Host.Property

namespace BoardScript

/-- The place of an element. -/
def HostRef.places : HostRef → List Nat
  | .element index => [index]
  | _ => []

namespace Heap

variable {h h' : Heap} {ref : HostRef} {index board : Nat} {name kind id : String} {value : Value}
  {args parents : List Value} {attributes : Fields}

-- ================================================================ changes

/-- A heap on which one element was changed and still is what it was, or
none. -/
def Touches (h h' : Heap) : Prop :=
  h' = h ∨ ∃ (index : Nat) (change : Element → Element), h' = h.modifyElement index change ∧
    ∀ e, h.elements[index]? = some e → e.Same (change e)

theorem touches_refl (h : Heap) : h.Touches h := .inl rfl

theorem touches_change {change : Element → Element} (hchange : ∀ e : Element, e.Same (change e)) :
    h.Touches (h.modifyElement index change) :=
  .inr ⟨index, change, rfl, fun e _ => hchange e⟩

/-- One element takes the place of what it was before. -/
theorem touches_replace {e changed : Element} (he : h.elements[index]? = some e)
    (hsame : e.Same changed) : h.Touches (h.modifyElement index fun _ => changed) := by
  refine .inr ⟨index, _, rfl, fun e' he' => ?_⟩
  obtain rfl := Option.some.inj (he.symm.trans he')
  exact hsame

theorem touches_setProperty (hset : h.setProperty ref name value = .ok h') : h.Touches h' := by
  unfold Heap.setProperty at hset
  split at hset
  · split at hset
    · rename_i index _ e he
      cases hchanged : e.setProperty name value (h.text value) with
      | error cause => rw [hchanged] at hset; cases hset
      | ok changed =>
          rw [hchanged] at hset
          cases hset
          exact touches_replace he (Element.same_setProperty hchanged)
    · cases hset
      exact touches_refl h
  · cases hset
  · cases hset
    exact touches_refl h

theorem touches_setItemOf {place : Nat} (hset : h.setItemOf ref place value = .ok h') :
    h.Touches h' := by
  unfold Heap.setItemOf at hset
  dsimp only at hset
  split at hset
  · split at hset
    · split at hset
      · rename_i axis _ _ e he _
        cases hchanged : e.setCoordinate axis value with
        | error cause => rw [hchanged] at hset; cases hset
        | ok changed =>
            rw [hchanged] at hset
            cases hset
            exact touches_replace he (Element.same_setCoordinate hchanged)
      · cases hset
    · cases hset
  · cases hset

theorem touches_callElement {e : Element} {method : String} (he : h.elements[index]? = some e)
    (hcall : h.callElement index e method args = .ok (value, h')) : h.Touches h' := by
  unfold Heap.callElement at hcall
  dsimp only at hcall
  split at hcall
  · cases hcall
    exact touches_refl h
  · cases hcall
    exact touches_refl h
  · split at hcall <;> cases hcall
    exact touches_refl h
  · split at hcall <;> cases hcall
    exact touches_change fun _ => ⟨rfl, rfl, rfl, rfl⟩
  · cases hlength : h.segmentLength e with
    | error cause => rw [hlength] at hcall; cases hcall
    | ok x =>
        rw [hlength] at hcall
        cases hcall
        exact touches_refl h
  · split at hcall <;> cases hcall
    exact touches_refl h
  · split at hcall
    · cases hset : e.setValue (args.headD .undefined) with
      | error cause => rw [hset] at hcall; cases hcall
      | ok changed =>
          rw [hset] at hcall
          cases hcall
          exact touches_replace he (Element.same_setValue hset)
    · cases hcall
  · cases hcall
    exact touches_change fun _ => ⟨rfl, rfl, rfl, rfl⟩
  · cases hcall

/-- A method may change an element, but makes none. -/
theorem touches_callMethod {method : String}
    (hcall : h.callMethod ref method args = .ok (value, h')) : h.Touches h' := by
  unfold Heap.callMethod at hcall
  split at hcall
  · split at hcall
    · exact touches_callElement ‹_› hcall
    · cases hcall
  · split at hcall <;> cases hcall
    exact touches_refl h
  · cases hcall

-- ================================================================= onward

/-- A heap later on: each element still is at its place and still is what it
was, and it is removed if it was before or if its place is one of those that
are gone. -/
def Onward (gone : List Nat) (h h' : Heap) : Prop :=
  ∀ i e, h.elements[i]? = some e → ∃ changed, h'.elements[i]? = some changed ∧
    changed.id = e.id ∧ changed.label = e.label ∧
    (changed.removed = true ↔ e.removed = true ∨ i ∈ gone)

theorem onward_of_elements (he : ∀ i < h.elements.size, h'.elements[i]? = h.elements[i]?) :
    h.Onward [] h' := by
  intro i e hi
  have hlt : i < h.elements.size := (Array.getElem?_eq_some_iff.1 hi).1
  exact ⟨e, (he i hlt).trans hi, rfl, rfl, by simp⟩

theorem Touches.onward (htouches : h.Touches h') : h.Onward [] h' := by
  rcases htouches with rfl | ⟨index, change, rfl, hchange⟩
  · exact onward_of_elements fun _ _ => rfl
  intro i e hi
  by_cases hindex : index = i
  · subst hindex
    obtain ⟨hid, -, hlabel, hremoved⟩ := hchange e hi
    refine ⟨change e, ?_, hid, hlabel, ?_⟩
    · simp [Heap.modifyElement, Array.getElem?_modify, hi]
    · simp [hremoved]
  · refine ⟨e, ?_, rfl, rfl, by simp⟩
    simp [Heap.modifyElement, Array.getElem?_modify, hindex, hi]

/-- Nothing but the one element is removed, and nothing if it is none. -/
theorem onward_remove (ref : HostRef) : h.Onward ref.places (h.remove ref) := by
  cases ref with
  | element index =>
      intro i e hi
      by_cases hindex : index = i
      · refine ⟨{ e with removed := true }, ?_, rfl, rfl, by simp [HostRef.places, hindex]⟩
        simp [Heap.remove, Heap.modifyElement, Array.getElem?_modify, hindex, hi]
      · refine ⟨e, ?_, rfl, rfl, by simp [HostRef.places, Ne.symm hindex]⟩
        simp [Heap.remove, Heap.modifyElement, Array.getElem?_modify, hindex, hi]
  | _ => exact onward_of_elements fun _ _ => rfl

-- =============================================================== creation

/-- Whether the label of an element, if it has one, is an element that is
identified after it. -/
def Labelled (h : Heap) (e : Element) : Prop :=
  ∀ ref, e.label = some ref → ∃ j label, ref = .element j ∧ h.elements[j]? = some label ∧
    label.id = e.id ++ "_label"

/-- A blueprint for an element with an identifier, its label included. -/
structure Blueprint.For (made : Blueprint) (id : String) : Prop where
  identified : made.element.id = id
  live : made.element.removed = false
  label : ∀ label, made.label = some label → label.id = id ++ "_label"

theorem for_of_make {made : Blueprint} (hmade : h.make kind id name parents = .ok made) :
    made.For id := by
  have hplain (element : Element) (hid : element.id = id) (hlive : element.removed = false) :
      Blueprint.For { element } id :=
    ⟨hid, hlive, fun _ hlabel => nomatch hlabel⟩
  unfold make at hmade
  split at hmade
  · simp only [makePoint] at hmade
    split at hmade <;> cases hmade
    exact ⟨rfl, rfl, fun _ hlabel => by cases hlabel; rfl⟩
  · unfold makeSegment at hmade
    split at hmade
    · split at hmade <;> cases hmade
      exact hplain _ rfl rfl
    · cases hmade
  · unfold makeText at hmade
    split at hmade
    · split at hmade <;> cases hmade
      exact hplain _ rfl rfl
    · cases hmade
  · unfold makeSlider at hmade
    split at hmade
    · split at hmade
      · split at hmade <;> cases hmade
        exact hplain _ rfl rfl
      · cases hmade
    · cases hmade
  · cases hmade

/-- What a creator does to a heap: the board gets one more element, at a
place that was free, with the identifier that was next. What was there
before is as it was. -/
structure Adds (h : Heap) (board index : Nat) (h' : Heap) : Prop where
  boards : h'.boards = h.boards.modify board fun b => { b with elements := b.elements.push index }
  fresh : h.elements.size ≤ index
  others : ∀ i < h.elements.size, h'.elements[i]? = h.elements[i]?
  element : ∃ e, h'.elements[index]? = some e ∧ e.id = h.nextId board ∧ e.removed = false ∧
    h'.Labelled e

theorem adds_addElement {made : Blueprint} (hmade : made.For (h.nextId board)) :
    ∃ index, (h.addElement board made attributes).1 = .host (.element index) ∧
      h.Adds board index (h.addElement board made attributes).2 := by
  obtain ⟨element, label⟩ := made
  obtain ⟨hid, hlive, hlabel⟩ := hmade
  cases label with
  | none =>
      refine ⟨h.elements.size, rfl, rfl, Nat.le_refl _, fun i hi => ?_, ?_⟩
      · exact Array.getElem?_push_lt hi ▸ (Array.getElem?_eq_getElem hi).symm
      · exact ⟨_, Array.getElem?_push_size, hid, hlive, fun _ hnone => nomatch hnone⟩
  | some label =>
      -- the label is put in front of its element
      have hsize : (h.newElement label).2.elements.size = h.elements.size + 1 := Array.size_push _
      refine ⟨(h.newElement label).2.elements.size, rfl, rfl, ?_, fun i hi => ?_, ?_⟩
      · omega
      · show ((h.elements.push label).push _)[i]? = h.elements[i]?
        rw [Array.getElem?_push, if_neg (by rw [Array.size_push]; omega), Array.getElem?_push,
          if_neg (by omega)]
      · refine ⟨_, Array.getElem?_push_size, hid, hlive, ?_⟩
        rintro _ ⟨⟩
        refine ⟨_, label, rfl, ?_, (hlabel label rfl).trans (congrArg (· ++ "_label") hid.symm)⟩
        show ((h.elements.push label).push _)[h.elements.size]? = some label
        rw [Array.getElem?_push, if_neg (by rw [Array.size_push]; omega), Array.getElem?_push_size]

/-- A creator adds one element, or fails. -/
theorem adds_create (hmade : h.create board kind parents attributes = .ok (value, h')) :
    ∃ index, value = .host (.element index) ∧ h.Adds board index h' := by
  unfold create at hmade
  dsimp only at hmade
  cases hmake : h.make kind (h.nextId board) _ parents with
  | error cause =>
      rw [hmake] at hmade
      cases hmade
  | ok made =>
      rw [hmake] at hmade
      cases hmade
      exact adds_addElement (for_of_make hmake)

end Heap

end BoardScript
