/-
What a board lists. Of all that a host is asked for, a roster notes what was
made on a board and what of it was removed; that is all it takes to say what
the board lists and what is found on it, whatever else was asked for in
between (`Heap.Holds`). One request keeps heap and roster in agreement
(`Heap.Holds.served`), so a run of them does (`Heap.Holds.serves`).

Identifiers are made of the length of the list. They differ all the same,
since what is removed stays listed; those of labels end in a word, and no
number does.
-/
import BoardScript.Proofs.Value.Stored
import BoardScript.Run.Interpreter
import Mathlib.Data.List.Nodup

namespace BoardScript

-- =============================================================== requests

/-- What a host can be asked for: to create an element, to write to one by
name or by place, to call a method, to remove something. Programs write in
lower case and not to all names; whoever has the board itself may write to any
name as it is spelled. -/
inductive Request where
  | create (session : Nat) (kind : String) (parents : List Value) (attributes : Fields)
  | write (ref : HostRef) (name : String) (value : Value)
  | put (ref : HostRef) (name : String) (value : Value)
  | writeAt (ref : HostRef) (place value : Value)
  | call (ref : HostRef) (method : String) (args : List Value)
  | remove (ref : HostRef)

namespace Request

/-- What a machine does when it is asked for something. -/
def serve (span : Span) : Request → Eval Value
  | create session kind parents attributes => do
      let host := (← get).host
      askHost (fun heap => host.invoke heap session kind parents attributes)
        (.creatorFailed kind) span
  | write ref name value => do
      setProperty (.host ref) name value span
      return .undefined
  | put ref name value => do
      changeHeap (fun heap => heap.setProperty ref name value) .host span
      return .undefined
  | writeAt ref place value => do
      setIndex (.host ref) place value span
      return .undefined
  | call ref method args => askHost (fun heap => heap.callMethod ref method args) .host span
  | remove ref => do
      updateHeap (·.remove ref)
      return .undefined

end Request

/-- What was made on a board, by place and oldest first, and what of it has
been removed. -/
structure Roster where
  made : List Nat := []
  removed : List Nat := []

namespace Roster

/-- What was made and not removed. -/
def live (r : Roster) : List Nat := r.made.filter (· ∉ r.removed)

def add (r : Roster) (index : Nat) : Roster := { r with made := r.made ++ [index] }

def drop (r : Roster) (places : List Nat) : Roster :=
  { r with removed := r.removed ++ places.filter (· ∈ r.made) }

@[simp] theorem drop_nil (r : Roster) : r.drop [] = r := by
  simp [drop]

/-- The roster of a board after a request that was answered. -/
def note (r : Roster) (board : Nat) (m : Machine) (request : Request) (answer : Value) : Roster :=
  match request, answer with
  | .create session .., .host (.element index) =>
      if m.host.boards[session]? = some board then r.add index else r
  | .remove ref, _ => r.drop ref.places
  | _, _ => r

/-- Nothing is ever taken from a roster. -/
theorem note_mono (r : Roster) (board : Nat) (m : Machine) (request : Request) (answer : Value) :
    r.made <+: (r.note board m request answer).made ∧
      ∀ i ∈ r.removed, i ∈ (r.note board m request answer).removed := by
  unfold note
  split
  · split
    · exact ⟨List.prefix_append _ _, fun _ hi => hi⟩
    · exact ⟨List.prefix_rfl, fun _ hi => hi⟩
  · exact ⟨List.prefix_rfl, fun _ hi => List.mem_append_left _ hi⟩
  · exact ⟨List.prefix_rfl, fun _ hi => hi⟩

end Roster

/-- A machine and the roster of a board, after any requests in any order
that were answered or refused. What happens in between leaves elements and
boards alone. -/
inductive Machine.Serves (board : Nat) (m : Machine) (r : Roster) : Machine → Roster → Prop
  | start : Serves board m r m r
  | answered {n n' : Machine} {r' : Roster} {request : Request} {span : Span} {answer : Value}
      (h : Serves board m r n r') (hserve : request.serve span n = .ok answer n') :
      Serves board m r n' (r'.note board n request answer)
  | refused {n n' : Machine} {r' : Roster} {request : Request} {span : Span} {cause : Unwind}
      (h : Serves board m r n r') (hserve : request.serve span n = .error cause n') :
      Serves board m r n' r'
  | meanwhile {n n' : Machine} {r' : Roster} (h : Serves board m r n r')
      (helements : n'.heap.elements = n.heap.elements) (hboards : n'.heap.boards = n.heap.boards) :
      Serves board m r n' r'

namespace Request

variable {request : Request} {m n : Machine} {span : Span} {value : Value} {cause : Unwind}

/-- Whether a request is for something new. -/
def creates : Request → Bool
  | create .. => true
  | _ => false

/-- The places of what a request is to remove. -/
def removes : Request → List Nat
  | remove ref => ref.places
  | _ => []

/-- What a request comes to: it is refused and changes nothing; or a creator
adds an element to the board of its session; or the boards list what they
listed before, and elements are removed as asked. -/
inductive Outcome (m : Machine) : Request → EStateM.Result Unwind Machine Value → Prop
  | refused {request : Request} {cause : Unwind} : Outcome m request (.error cause m)
  | made {session : Nat} {kind : String} {parents : List Value} {attributes : Fields}
      {board index : Nat} {heap : Heap} (hboard : m.host.boards[session]? = some board)
      (hadds : m.heap.Adds board index heap) :
      Outcome m (create session kind parents attributes)
        (.ok (.host (.element index)) { m with heap })
  | done {request : Request} {value : Value} {heap : Heap} (hnone : request.creates = false)
      (hstill : m.heap.Still heap) (honward : m.heap.Onward request.removes heap) :
      Outcome m request (.ok value { m with heap })

/-- A change that a host may refuse. -/
theorem outcome_changeHeap {change : Heap → Except HostError Heap} (hnone : request.creates = false)
    (hchange : ∀ heap, change m.heap = .ok heap →
      m.heap.Still heap ∧ m.heap.Onward request.removes heap) :
    Outcome m request
      ((do changeHeap change .host span; return Value.undefined : Eval Value) m) := by
  show Outcome m request (EStateM.bind (changeHeap change .host span) _ m)
  unfold EStateM.bind changeHeap
  cases h : change m.heap with
  | error cause => exact .refused
  | ok heap => exact .done hnone (hchange heap h).1 (hchange heap h).2

theorem outcome_create (session : Nat) (kind : String) (parents : List Value)
    (attributes : Fields) :
    Outcome m (create session kind parents attributes)
      (askHost (fun heap => m.host.invoke heap session kind parents attributes)
        (.creatorFailed kind) span m) := by
  unfold askHost
  dsimp only
  cases hinvoke : m.host.invoke m.heap session kind parents attributes with
  | error cause => exact .refused
  | ok answer =>
      obtain ⟨value, heap⟩ := answer
      unfold Host.invoke at hinvoke
      split at hinvoke
      · obtain ⟨index, rfl, hadds⟩ := Heap.adds_create hinvoke
        exact .made ‹_› hadds
      · cases hinvoke

theorem outcome_call (ref : HostRef) (method : String) (args : List Value) :
    Outcome m (call ref method args)
      (askHost (fun heap => heap.callMethod ref method args) .host span m) := by
  unfold askHost
  dsimp only
  cases hcall : m.heap.callMethod ref method args with
  | error cause => exact .refused
  | ok answer => exact .done rfl (.callMethod hcall) (Heap.touches_callMethod hcall).onward

/-- Names that an element has of its own are not written over: such a write
is kept among the attributes. -/
theorem outcome_put (ref : HostRef) (name : String) (value : Value) {request : Request}
    (hnone : request.creates = false) (hgone : request.removes = []) :
    Outcome m request
      ((do changeHeap (fun heap => heap.setProperty ref name value) .host span
           return Value.undefined : Eval Value) m) :=
  outcome_changeHeap hnone fun _ h =>
    ⟨.setProperty h, hgone ▸ (Heap.touches_setProperty h).onward⟩

theorem outcome_serve (request : Request) (span : Span) (m : Machine) :
    Outcome m request (request.serve span m) := by
  cases request with
  | create session kind parents attributes => exact outcome_create session kind parents attributes
  | write ref name value =>
      unfold serve setProperty
      dsimp only
      split
      · exact .refused
      · exact outcome_put ref _ value rfl rfl
  | put ref name value => exact outcome_put ref name value rfl rfl
  | writeAt ref place value =>
      unfold serve setIndex
      dsimp only
      cases Operators.place? place with
      | none => exact .refused
      | some i =>
          exact outcome_changeHeap rfl fun heap h => ⟨.setItemOf h, (Heap.touches_setItemOf h).onward⟩
  | call ref method args => exact outcome_call ref method args
  | remove ref => exact .done rfl (.remove m.heap ref) (Heap.onward_remove ref)

/-- What is refused changes nothing. -/
theorem eq_of_refused (h : request.serve span m = .error cause n) : n = m := by
  have houtcome := outcome_serve request span m
  rw [h] at houtcome
  cases houtcome
  rfl

/-- Elements stay at their places, whatever is asked for. -/
theorem onward_of_answered (h : request.serve span m = .ok value n) :
    ∃ gone, m.heap.Onward gone n.heap := by
  have houtcome := outcome_serve request span m
  rw [h] at houtcome
  cases houtcome with
  | made _ hadds => exact ⟨[], Heap.onward_of_elements hadds.others⟩
  | done _ _ honward => exact ⟨_, honward⟩

end Request

-- ============================================================ identifiers

/-- The identifier of what was made on a board, counted from nought. -/
def elementId (name : String) (k : Nat) : String := name ++ "_el" ++ toString (k + 1)

theorem elementId_inj {name : String} {j k : Nat} :
    elementId name j = elementId name k ↔ j = k := by
  refine ⟨fun h => ?_, congrArg (elementId name)⟩
  unfold elementId at h
  rw [String.append_right_inj, Nat.toString_eq_repr, Nat.toString_eq_repr,
    Nat.repr_eq_ofList_toDigits, Nat.repr_eq_ofList_toDigits, String.ofList_inj] at h
  have hread := congrArg (Nat.ofDigitChars 10 · 0) h
  simp only [Nat.ofDigitChars_ten_toDigits] at hread
  omega

/-- No element is identified as a label is. -/
theorem elementId_ne_label {name : String} {j k : Nat} :
    elementId name j ≠ elementId name k ++ "_label" := by
  intro h
  unfold elementId at h
  simp only [String.append_assoc, String.append_right_inj] at h
  have hmem : '_' ∈ (toString (j + 1)).toList := by
    rw [h, String.toList_append]
    exact List.mem_append_right _ (by decide)
  rw [Nat.toString_eq_repr, Nat.repr_eq_ofList_toDigits, String.toList_ofList] at hmem
  exact absurd (Nat.isDigit_of_mem_toDigits (by decide) (by decide) hmem) (by decide)

namespace Heap

variable {h h' : Heap} {board i : Nat} {name text : String} {r : Roster}

theorem hostId_element (h : Heap) (i : Nat) :
    h.hostId (.element i) = (h.elements.getD i default).id := by
  rw [Array.getD_eq_getD_getElem?]
  unfold hostId
  dsimp only
  cases h.elements[i]? <;> rfl

theorem hostName_element (h : Heap) (i : Nat) :
    h.hostName (.element i) = (h.elements.getD i default).name := by
  rw [Array.getD_eq_getD_getElem?]
  unfold hostName
  dsimp only
  cases h.elements[i]? <;> rfl

/-- The identifiers of an element and of its label. -/
def identifiersAt (h : Heap) (i : Nat) : List String :=
  match h.elements[i]? with
  | some e => e.id :: (e.label.map h.hostId).toList
  | none => []

/-- Whether an element has an identifier or a name. -/
def Answers (h : Heap) (text : String) (i : Nat) : Prop :=
  h.hostId (.element i) = text ∨ h.hostName (.element i) = text

instance : Decidable (h.Answers text i) := inferInstanceAs (Decidable (_ ∨ _))

-- ================================================================ rosters

/-- A heap on which a board lists what its roster says was made. -/
structure Holds (h : Heap) (board : Nat) (name : String) (r : Roster) : Prop where
  listed : h.boards[board]? = some ⟨name, r.made.toArray⟩
  once : r.made.Nodup
  among : ∀ i ∈ r.removed, i ∈ r.made
  numbered : ∀ k i, r.made[k]? = some i → ∃ e, h.elements[i]? = some e ∧
    e.id = elementId name k ∧ (e.removed = true ↔ i ∈ r.removed) ∧ h.Labelled e

theorem holds_empty (hempty : h.boards[board]? = some { name }) : h.Holds board name {} where
  listed := hempty
  once := .nil
  among _ hi := nomatch hi
  numbered _ _ hk := nomatch hk

/-- What is identified after an element stays so. -/
theorem Labelled.onward {gone : List Nat} {e changed : Element} (hlabel : h.Labelled e)
    (honward : h.Onward gone h') (hid : changed.id = e.id) (hsame : changed.label = e.label) :
    h'.Labelled changed := by
  intro ref href
  obtain ⟨j, label, rfl, hj, hjid⟩ := hlabel ref (hsame ▸ href)
  obtain ⟨label', hj', hid', -, -⟩ := honward j label hj
  exact ⟨j, label', rfl, hj', by rw [hid', hjid, hid]⟩

namespace Holds

theorem lt_size (hr : h.Holds board name r) (hi : i ∈ r.made) : i < h.elements.size := by
  obtain ⟨k, hk⟩ := List.mem_iff_getElem?.1 hi
  obtain ⟨e, he, -⟩ := hr.numbered k i hk
  exact (Array.getElem?_eq_some_iff.1 he).1

theorem nextId (hr : h.Holds board name r) : h.nextId board = elementId name r.made.length := by
  unfold Heap.nextId elementId
  rw [Array.getD_eq_getD_getElem?, hr.listed]
  rfl

/-- Elements that change and elements that are removed. -/
theorem onward {gone : List Nat} (hr : h.Holds board name r)
    (hboards : h'.boards[board]? = h.boards[board]?) (honward : h.Onward gone h') :
    h'.Holds board name (r.drop gone) where
  listed := hboards.trans hr.listed
  once := hr.once
  among i hi := by
    rcases List.mem_append.1 hi with hi | hi
    · exact hr.among i hi
    · exact of_decide_eq_true (List.mem_filter.1 hi).2
  numbered k i hk := by
    obtain ⟨e, he, hid, hremoved, hlabel⟩ := hr.numbered k i hk
    obtain ⟨changed, hchanged, hid', hlabel', hremoved'⟩ := honward i e he
    refine ⟨changed, hchanged, hid'.trans hid, ?_, hlabel.onward honward hid' hlabel'⟩
    have hmade : i ∈ r.made := List.mem_of_getElem? hk
    simp [hremoved', hremoved, Roster.drop, hmade]

/-- An element that a creator adds. -/
theorem adds {index : Nat} (hr : h.Holds board name r) (hadds : h.Adds board index h') :
    h'.Holds board name (r.add index) := by
  have hnew : index ∉ r.made := fun hi => Nat.not_lt.2 hadds.fresh (hr.lt_size hi)
  have honward : h.Onward [] h' := onward_of_elements hadds.others
  refine ⟨?_, ?_, fun i hi => List.mem_append_left _ (hr.among i hi), fun k i hk => ?_⟩
  · rw [hadds.boards, Array.getElem?_modify, if_pos rfl, hr.listed]
    simp [Roster.add]
  · rw [Roster.add, List.nodup_append]
    exact ⟨hr.once, List.nodup_singleton index, fun i hi j hj => by
      rw [List.mem_singleton.1 hj]
      exact fun heq => hnew (heq ▸ hi)⟩
  · rcases Nat.lt_trichotomy k r.made.length with hlt | rfl | hgt
    · rw [Roster.add, List.getElem?_append_left hlt] at hk
      obtain ⟨e, he, hid, hremoved, hlabel⟩ := hr.numbered k i hk
      have hothers := hadds.others i (hr.lt_size (List.mem_of_getElem? hk))
      exact ⟨e, hothers.trans he, hid, hremoved, hlabel.onward honward rfl rfl⟩
    · rw [Roster.add, List.getElem?_concat_length] at hk
      obtain rfl := Option.some.inj hk
      obtain ⟨e, he, hid, hlive, hlabel⟩ := hadds.element
      refine ⟨e, he, hid.trans hr.nextId, ?_, hlabel⟩
      rw [hlive]
      exact iff_of_false Bool.false_ne_true fun hi => hnew (hr.among _ hi)
    · rw [List.getElem?_eq_none (by simp [Roster.add]; omega)] at hk
      cases hk

/-- A request that is answered keeps a heap and the roster in agreement. -/
theorem served {m n : Machine} {request : Request} {span : Span} {answer : Value}
    (hr : m.heap.Holds board name r) (hserve : request.serve span m = .ok answer n) :
    n.heap.Holds board name (r.note board m request answer) := by
  have houtcome := Request.outcome_serve request span m
  rw [hserve] at houtcome
  cases houtcome with
  | made hboard hadds =>
      rename_i session _ _ _ board' index heap
      dsimp only [Roster.note]
      split
      · rename_i heq
        obtain rfl := Option.some.inj (hboard.symm.trans heq)
        exact hr.adds hadds
      · rename_i hne
        have hother : board' ≠ board := fun heq => hne (heq ▸ hboard)
        have hboards : heap.boards[board]? = m.heap.boards[board]? := by
          rw [hadds.boards, Array.getElem?_modify, if_neg hother]
        exact r.drop_nil ▸ hr.onward hboards (onward_of_elements hadds.others)
  | done hnone hstill honward =>
      have hkept := hr.onward (congrArg (·[board]?) hstill.boards) honward
      cases request with
      | create session kind parents attributes => cases hnone
      | remove ref => exact hkept
      | _ => exact r.drop_nil ▸ hkept

/-- So does any number of requests, whatever becomes of them. -/
theorem serves {m n : Machine} {r' : Roster} (hr : m.heap.Holds board name r)
    (hserves : m.Serves board r n r') : n.heap.Holds board name r' := by
  induction hserves with
  | start => exact hr
  | answered _ hserve ih => exact ih.served hserve
  | refused _ hserve ih => exact Request.eq_of_refused hserve ▸ ih
  | meanwhile _ helements hboards ih =>
      have hkept := ih.onward (congrArg (·[board]?) hboards)
        (onward_of_elements fun _ _ => by rw [helements])
      rwa [Roster.drop_nil] at hkept

-- ================================================================ reading

/-- The elements of a board are those of its roster that are live. -/
theorem liveElements_eq (hr : h.Holds board name r) :
    h.liveElements board = r.live.map fun i => (i, h.elements.getD i default) := by
  unfold liveElements Roster.live
  rw [Array.getD_eq_getD_getElem?, hr.listed, ← List.filterMap_eq_filter, List.map_filterMap]
  refine List.filterMap_congr fun i hi => ?_
  obtain ⟨k, hk⟩ := List.mem_iff_getElem?.1 hi
  obtain ⟨e, he, -, hremoved, -⟩ := hr.numbered k i hk
  by_cases hgone : i ∈ r.removed
  · simp [he, hremoved.2 hgone, hgone, Option.guard]
  · simp [he, mt hremoved.1 hgone, hgone, Option.guard]

theorem places_liveElements (hr : h.Holds board name r) :
    (h.liveElements board).map Prod.fst = r.live := by
  rw [hr.liveElements_eq, List.map_map]
  exact List.map_id r.live

theorem numobjects (hr : h.Holds board name r) :
    h.attribute? (.board board) "numobjects" = some (.number r.live.length.toFloat) := by
  show some (Value.number (h.liveElements board).length.toFloat) = _
  rw [hr.liveElements_eq, List.length_map]

/-- Looking something up goes through what is live from the youngest on. -/
theorem select_eq (hr : h.Holds board name r) (text : String) :
    h.select board text
      = (r.live.reverse.find? fun i => h.Answers text i).map fun i => .host (.element i) := by
  have hanswers (i : Nat) : ((h.elements.getD i default).id == text
      || (h.elements.getD i default).name == text) = decide (h.Answers text i) := by
    rw [Bool.eq_iff_iff]
    simp [Answers, hostId_element, hostName_element]
  unfold select
  rw [hr.liveElements_eq, ← List.map_reverse, List.find?_map, Option.map_map]
  simp only [Function.comp_def, hanswers]

/-- What is found is the youngest that answers to the text. -/
theorem select_eq_some (hr : h.Holds board name r) {value : Value} :
    h.select board text = some value ↔ ∃ older i younger, r.live = older ++ i :: younger ∧
      value = .host (.element i) ∧ h.Answers text i ∧ ∀ j ∈ younger, ¬h.Answers text j := by
  rw [hr.select_eq, Option.map_eq_some_iff]
  constructor
  · rintro ⟨i, hi, rfl⟩
    obtain ⟨hanswers, younger, older, hsplit, hnone⟩ := List.find?_eq_some_iff_append.1 hi
    refine ⟨older.reverse, i, younger.reverse, ?_, rfl, of_decide_eq_true hanswers, fun j hj => ?_⟩
    · rw [← List.reverse_reverse r.live, hsplit]
      simp
    · simpa using hnone j (List.mem_reverse.1 hj)
  · rintro ⟨older, i, younger, hsplit, rfl, hanswers, hnone⟩
    refine ⟨i, List.find?_eq_some_iff_append.2 ⟨decide_eq_true hanswers, younger.reverse,
      older.reverse, ?_, fun j hj => ?_⟩, rfl⟩
    · rw [hsplit]
      simp
    · simpa using hnone j (List.mem_reverse.1 hj)

theorem select_eq_none (hr : h.Holds board name r) :
    h.select board text = none ↔ ∀ i ∈ r.live, ¬h.Answers text i := by
  rw [hr.select_eq, Option.map_eq_none_iff, List.find?_eq_none]
  simp

/-- What is removed is not found, whatever is asked for. -/
theorem select_ne_of_removed (hr : h.Holds board name r) (hi : i ∈ r.removed) (text : String) :
    h.select board text ≠ some (.host (.element i)) := by
  intro hselect
  obtain ⟨older, j, younger, hsplit, heq, -, -⟩ := hr.select_eq_some.1 hselect
  cases heq
  have hlive : i ∈ r.live := hsplit ▸ List.mem_append_right _ List.mem_cons_self
  exact of_decide_eq_true (List.mem_filter.1 hlive).2 hi

-- ============================================================ identifiers

/-- The identifiers at a place say when the element was made. -/
theorem identifiersAt_cases (hr : h.Holds board name r) {k : Nat} (hk : r.made[k]? = some i) :
    h.identifiersAt i = [elementId name k] ∨
      h.identifiersAt i = [elementId name k, elementId name k ++ "_label"] := by
  obtain ⟨e, he, hid, -, hlabel⟩ := hr.numbered k i hk
  unfold identifiersAt
  rw [he]
  dsimp only
  cases href : e.label with
  | none => exact .inl (hid ▸ rfl)
  | some ref =>
      obtain ⟨j, label, rfl, hj, hjid⟩ := hlabel ref href
      refine .inr ?_
      simp [hostId, hj, hjid, hid]

theorem nodup_identifiers (hr : h.Holds board name r) : (r.made.flatMap h.identifiersAt).Nodup := by
  rw [List.nodup_flatMap, List.pairwise_iff_getElem]
  constructor
  · intro i hi
    obtain ⟨k, hk⟩ := List.mem_iff_getElem?.1 hi
    rcases hr.identifiersAt_cases hk with h | h <;> rw [h]
    · exact List.nodup_singleton _
    · simpa using elementId_ne_label
  · intro j k hj hk hlt
    have hne : j ≠ k := Nat.ne_of_lt hlt
    rcases hr.identifiersAt_cases (List.getElem?_eq_getElem hj) with h | h <;>
      rcases hr.identifiersAt_cases (List.getElem?_eq_getElem hk) with h' | h' <;>
      simp [Function.onFun, h, h', elementId_inj, hne, hne.symm, elementId_ne_label,
        elementId_ne_label.symm]

/-- Identifiers stay, those of labels included. -/
theorem identifiersAt_onward {gone : List Nat} (hr : h.Holds board name r)
    (honward : h.Onward gone h') (hi : i ∈ r.made) : h'.identifiersAt i = h.identifiersAt i := by
  obtain ⟨k, hk⟩ := List.mem_iff_getElem?.1 hi
  obtain ⟨e, he, -, -, hlabel⟩ := hr.numbered k i hk
  obtain ⟨changed, hchanged, hid, hsame, -⟩ := honward i e he
  unfold identifiersAt
  rw [he, hchanged]
  dsimp only
  rw [hid, hsame]
  cases href : e.label with
  | none => rfl
  | some ref =>
      obtain ⟨j, label, rfl, hj, -⟩ := hlabel ref href
      obtain ⟨label', hj', hid', -⟩ := honward j label hj
      simp [hostId, hj, hj', hid']

/-- From any time on: what was made then stays on the roster under the
identifiers that it had, and so does what was removed. -/
theorem later {m n : Machine} {r' : Roster} (hr : m.heap.Holds board name r)
    (hserves : m.Serves board r n r') :
    r.made <+: r'.made ∧ (∀ i ∈ r.removed, i ∈ r'.removed) ∧
      ∀ i ∈ r.made, n.heap.identifiersAt i = m.heap.identifiersAt i := by
  induction hserves with
  | start => exact ⟨List.prefix_rfl, fun _ hi => hi, fun _ _ => rfl⟩
  | @answered n n' r' request span answer h hserve ih =>
      obtain ⟨hmade, hremoved, hids⟩ := ih
      obtain ⟨hmade', hremoved'⟩ := r'.note_mono board n request answer
      obtain ⟨gone, honward⟩ := Request.onward_of_answered hserve
      refine ⟨hmade.trans hmade', fun i hi => hremoved' i (hremoved i hi), fun i hi => ?_⟩
      rw [(hr.serves h).identifiersAt_onward honward (hmade.subset hi), hids i hi]
  | refused _ hserve ih => exact Request.eq_of_refused hserve ▸ ih
  | @meanwhile n n' r' h helements _ ih =>
      obtain ⟨hmade, hremoved, hids⟩ := ih
      refine ⟨hmade, hremoved, fun i hi => ?_⟩
      have honward : n.heap.Onward [] n'.heap := onward_of_elements fun _ _ => by rw [helements]
      rw [(hr.serves h).identifiersAt_onward honward (hmade.subset hi), hids i hi]

theorem map_live (hr : h.Holds board name r)
    (hothers : ∀ j < h.elements.size, h'.elements[j]? = h.elements[j]?) :
    (r.live.map fun i => (i, h'.elements.getD i default))
      = r.live.map fun i => (i, h.elements.getD i default) := by
  refine List.map_congr_left fun i hi => ?_
  rw [Array.getD_eq_getD_getElem?, Array.getD_eq_getD_getElem?,
    hothers i (hr.lt_size (List.mem_of_mem_filter hi))]

/-- A board lists the same as long as its roster and the elements that were
there are the same. -/
theorem liveElements_kept (hr : h.Holds board name r) (hr' : h'.Holds board name r)
    (hothers : ∀ j < h.elements.size, h'.elements[j]? = h.elements[j]?) :
    h'.liveElements board = h.liveElements board := by
  rw [hr'.liveElements_eq, hr.map_live hothers, hr.liveElements_eq]

/-- What a creator adds is listed behind all that was there before, under an
identifier that nothing on the board has had. -/
theorem liveElements_adds {index : Nat} (hr : h.Holds board name r)
    (hadds : h.Adds board index h') : ∃ e, h'.elements[index]? = some e ∧
      e.id ∉ r.made.flatMap h.identifiersAt ∧
      h'.liveElements board = h.liveElements board ++ [(index, e)] := by
  obtain ⟨e, he, hid, -, -⟩ := hadds.element
  refine ⟨e, he, fun hmem => ?_, ?_⟩
  · obtain ⟨i, hi, hmem⟩ := List.mem_flatMap.1 hmem
    obtain ⟨k, hlt, rfl⟩ := List.mem_iff_getElem.1 hi
    rw [hid, hr.nextId] at hmem
    rcases hr.identifiersAt_cases (List.getElem?_eq_getElem hlt) with h | h <;>
      simp [h, elementId_inj, elementId_ne_label] at hmem <;> omega
  · have hnew : index ∉ r.removed := fun hi =>
      Nat.not_lt.2 hadds.fresh (hr.lt_size (hr.among _ hi))
    have hlive : (r.add index).live = r.live ++ [index] := by
      rw [Roster.live, Roster.add, List.filter_append]
      exact congrArg (r.live ++ ·) (List.filter_cons_of_pos (decide_eq_true hnew))
    rw [(hr.adds hadds).liveElements_eq, hr.liveElements_eq, hlive, List.map_append,
      hr.map_live hadds.others]
    simp [he]

end Holds

end Heap

-- =================================================================== runs

section

variable {m n : Machine} {r : Roster} {board : Nat} {name : String}

/-- However a board that was empty was used: all identifiers given on it
differ; it lists what was made and not removed in the order in which it was
made, and counts that; the youngest of it is what is found by an identifier
or a name, if any answers to the text. Identifiers stay what they are from
then on, and what is removed stays out of all this. A creator that fails
changes nothing, whatever session it is called in; one that does not changes no
element that is there, and adds one at the end, or to the board of another
session. -/
theorem roster_of_serves (hempty : m.heap.boards[board]? = some { name })
    (hserves : m.Serves board {} n r) :
    (r.made.flatMap n.heap.identifiersAt).Nodup ∧
    (n.heap.liveElements board).map Prod.fst = r.live ∧
    n.heap.attribute? (.board board) "numobjects" = some (.number r.live.length.toFloat) ∧
    (∀ text value, n.heap.select board text = some value ↔
      ∃ older i younger, r.live = older ++ i :: younger ∧ value = .host (.element i) ∧
        n.heap.Answers text i ∧ ∀ j ∈ younger, ¬n.heap.Answers text j) ∧
    (∀ text, n.heap.select board text = none ↔ ∀ i ∈ r.live, ¬n.heap.Answers text i) ∧
    (∀ n' r', n.Serves board r n' r' →
      r.made <+: r'.made ∧ (∀ i ∈ r.made, n'.heap.identifiersAt i = n.heap.identifiersAt i) ∧
      ∀ i ∈ r.removed, i ∉ (n'.heap.liveElements board).map Prod.fst ∧
        ∀ text, n'.heap.select board text ≠ some (.host (.element i))) ∧
    ∀ session kind parents attributes span,
      match (Request.create session kind parents attributes).serve span n with
      | .error _ n' => n' = n
      | .ok value n' => (∀ j < n.heap.elements.size, n'.heap.elements[j]? = n.heap.elements[j]?) ∧
          ∃ i, value = .host (.element i) ∧
            if n.host.boards[session]? = some board then
              ∃ e, e.id ∉ r.made.flatMap n.heap.identifiersAt ∧
                n'.heap.liveElements board = n.heap.liveElements board ++ [(i, e)]
            else n'.heap.liveElements board = n.heap.liveElements board := by
  have hr : n.heap.Holds board name r := (Heap.holds_empty hempty).serves hserves
  refine ⟨hr.nodup_identifiers, hr.places_liveElements, hr.numobjects, fun _ _ => hr.select_eq_some,
    fun _ => hr.select_eq_none, fun n' r' hlater => ?_, fun session kind parents attributes span => ?_⟩
  · obtain ⟨hmade, hremoved, hids⟩ := hr.later hlater
    have hr' := hr.serves hlater
    refine ⟨hmade, hids, fun i hi => ⟨fun hmem => ?_, hr'.select_ne_of_removed (hremoved i hi)⟩⟩
    rw [hr'.places_liveElements] at hmem
    exact of_decide_eq_true (List.mem_filter.1 hmem).2 (hremoved i hi)
  · have houtcome := Request.outcome_serve (.create session kind parents attributes) span n
    cases hserve : (Request.create session kind parents attributes).serve span n with
    | error cause n' => exact Request.eq_of_refused hserve
    | ok value n' =>
        rw [hserve] at houtcome
        cases houtcome with
        | @made _ _ _ _ board' index heap hboard hadds =>
            refine ⟨hadds.others, index, rfl, ?_⟩
            by_cases hsession : n.host.boards[session]? = some board
            · rw [if_pos hsession]
              obtain rfl := Option.some.inj (hboard.symm.trans hsession)
              obtain ⟨e, -, hnew, hlive⟩ := hr.liveElements_adds hadds
              exact ⟨e, hnew, hlive⟩
            · rw [if_neg hsession]
              have hkept := hr.served hserve
              rw [Roster.note, if_neg hsession] at hkept
              exact hr.liveElements_kept hkept hadds.others
        | done hnone => cases hnone

/-- A point that is made, written to under the name of its identifier, and
removed: its identifier and that of its label differ, and it is not found
again. -/
theorem roster_of_removed_point :
    ∃ n, (Machine.withBoard "board").Serves 0 {} n ⟨[1], [1]⟩ ∧
      ([1].flatMap n.heap.identifiersAt).Nodup ∧ n.heap.select 0 "board_el1" = none := by
  obtain ⟨m, hmake⟩ : ∃ m, (Request.create 0 "point" [.number 1.0, .number 2.0] []).serve ⟨0, 1⟩
      (.withBoard "board") = .ok (.host (.element 1)) m := ⟨_, rfl⟩
  obtain ⟨k, hput⟩ : ∃ k, (Request.put (.element 1) "id" (.string "A")).serve ⟨0, 1⟩ m
      = .ok .undefined k := by
    cases hmake
    exact ⟨_, rfl⟩
  obtain ⟨n, hremove⟩ : ∃ n, (Request.remove (.element 1)).serve ⟨0, 1⟩ k = .ok .undefined n :=
    ⟨_, rfl⟩
  have hserves : (Machine.withBoard "board").Serves 0 {} n ⟨[1], [1]⟩ :=
    .answered (.answered (.answered .start hmake) hput) hremove
  have hroster := roster_of_serves rfl hserves
  exact ⟨n, hserves, hroster.1, (hroster.2.2.2.2.1 "board_el1").2 fun i hi => nomatch hi⟩

end

end BoardScript
