/-
What programs make is kept track of in two places: the board lists its
elements, and the machine keeps a record of each with the lines of the call
that made it. In front of one board the two stay in step
(`Machine.Lockstep`). Only creators add to either, and a creator that is
called adds one element and one record, or fails and adds nothing
(`Machine.Lockstep.invokeCreator`); nothing is ever taken from either, since
an element that is removed stays listed. So programs may call each other's
functions, and fail half way: what was made until then is on record.
-/
import BoardScript.Proofs.Run.Agreement
import BoardScript.Proofs.Run.Watched

namespace BoardScript

-- =============================================================== creations

namespace Creation

variable (c : Creation)

def object : HostRef := .element c.element

/-- The line of the first byte of the call. -/
def firstLine : Nat := c.source.lineOf c.call.span.start

/-- The line of the last byte of the call. -/
def lastLine : Nat := c.source.lineOf (c.call.span.stop - 1)

def record : Created := ⟨c.object, c.firstLine, c.lastLine⟩

/-- Whether a line is one of those of the call. -/
def covers (line : Nat) : Bool := c.firstLine ≤ line && line ≤ c.lastLine

end Creation

/-- What is recorded of an element that a call makes which takes up some of
the text. -/
theorem Created.at_call (element : Nat) (source : Source) {call : Node}
    (hcall : 0 < call.span.length) :
    Created.at (.element element) source call.span = Creation.record ⟨element, source, call⟩ := by
  have hstop : max call.span.stop (call.span.start + 1) = call.span.stop :=
    Nat.max_eq_left (Nat.add_le_add_left hcall _)
  rw [Created.at, hstop]
  rfl

-- ================================================================ programs

/-- Programs that may be run, each as its tree with the text that it was
read from. -/
structure Programs where
  Has : Source → Node → Prop
  proper : ∀ {source root}, Has source root → root.Proper Lexical
  wide : ∀ {source root}, Has source root → root.Wide

namespace Programs

/-- All that can be read. -/
def parsed : Programs where
  Has source root := ∃ options, parseProgram options source = .ok root
  proper := fun ⟨_, h⟩ => Machine.proper_of_parseProgram h
  wide := fun ⟨_, h⟩ => wide_of_parse (Machine.eq_of_faultless h)

/-- One program. -/
def single (source : Source) {root : Node} (hproper : root.Proper Lexical) (hwide : root.Wide) :
    Programs where
  Has s r := s = source ∧ r = root
  proper h := h.2 ▸ hproper
  wide h := h.2 ▸ hwide

variable (programs : Programs)

/-- A node in one of the programs. -/
def HasNode (source : Source) (node : Node) : Prop :=
  ∃ root, programs.Has source root ∧ node ∈ root.preorder

/-- A text whose program, if it is one, is one of them. -/
def HasText (options : ParseOptions) (text : String) : Prop :=
  ∀ root, parseProgram options (.ofText text) = .ok root → programs.Has (.ofText text) root

variable {programs} {source : Source}

theorem Has.node {root : Node} (h : programs.Has source root) : programs.HasNode source root :=
  ⟨root, h, preorder_eq root ▸ List.mem_cons_self⟩

theorem HasNode.child {node child : Node} (h : programs.HasNode source node)
    (hchild : child ∈ node.children) :
    programs.HasNode source child := by
  obtain ⟨root, hroot, hmem⟩ := h
  exact ⟨root, hroot, Node.mem_preorder_child hmem hchild⟩

/-- A call takes up some of the text. -/
theorem HasNode.length_pos {node : Node} (h : programs.HasNode source node) (hcall : node.IsCall) :
    0 < node.span.length := by
  obtain ⟨root, hroot, hmem⟩ := h
  exact ((programs.wide hroot).of_preorder hmem).length_pos hcall

theorem hasText_parsed (options : ParseOptions) (text : String) : parsed.HasText options text :=
  fun _ hroot => Exists.intro options hroot

end Programs

-- ================================================================ lockstep

/-- A machine in front of one board on which, and on record, is all that was
made, oldest first: each element once, with the call in one of the programs
that made it. -/
structure Machine.Lockstep (programs : Programs) (history : List Creation) (m : Machine) : Prop where
  host : m.host = ⟨[0]⟩
  board : ∃ name, m.heap.boards = #[⟨name, (history.map Creation.element).toArray⟩]
  created : m.created = (history.map Creation.record).toArray
  once : (history.map Creation.element).Pairwise (· < ·)
  there : ∀ c ∈ history, c.element < m.heap.elements.size
  calls : ∀ c ∈ history, c.call.IsCall ∧ programs.HasNode c.source c.call

namespace Heap

/-- A new element has a new place, and is the youngest on its board. -/
theorem addElement_cases (h : Heap) (board : Nat) (made : Blueprint) (attributes : Fields) :
    ∃ index heap, h.addElement board made attributes = (.host (.element index), heap) ∧
      h.elements.size ≤ index ∧ index < heap.elements.size ∧
      heap.boards = h.boards.modify board fun b => { b with elements := b.elements.push index } := by
  obtain ⟨element, label⟩ := made
  cases label with
  | none => exact ⟨_, _, rfl, Nat.le_refl _, by simp, rfl⟩
  | some label => exact ⟨_, _, rfl, by simp, by simp, rfl⟩

/-- A creator adds nothing or one element. -/
theorem create_cases (h : Heap) (board : Nat) (kind : String) (parents : List Value)
    (attributes : Fields) :
    (∃ cause, h.create board kind parents attributes = .error cause) ∨
    ∃ index heap, h.create board kind parents attributes = .ok (.host (.element index), heap) ∧
      h.elements.size ≤ index ∧ index < heap.elements.size ∧
      heap.boards = h.boards.modify board fun b => { b with elements := b.elements.push index } := by
  unfold create
  dsimp only
  cases h.make kind (h.nextId board) _ parents with
  | error cause => exact .inl ⟨cause, rfl⟩
  | ok made =>
      obtain ⟨index, heap, hadd, hrest⟩ := h.addElement_cases board made attributes
      exact .inr ⟨index, heap, congrArg Except.ok hadd, hrest⟩

end Heap

namespace Machine.Lockstep

variable {programs : Programs} {history : List Creation} {m n : Machine}

theorem quiet (h : m.Lockstep programs history) (hquiet : m.Quiet n) :
    n.Lockstep programs history where
  host := hquiet.host.trans h.host
  board := hquiet.heap.boards ▸ h.board
  created := hquiet.created.trans h.created
  once := h.once
  there c hc := Nat.lt_of_lt_of_le (h.there c hc) hquiet.heap.elements
  calls := h.calls

/-- With one more element on the board and one more record. -/
theorem add (h : m.Lockstep programs history) {source : Source} {call : Node} (hcall : call.IsCall)
    (hnode : programs.HasNode source call) {index : Nat} {heap : Heap}
    (hnew : m.heap.elements.size ≤ index) (hindex : index < heap.elements.size)
    (hboards : heap.boards = m.heap.boards.modify 0 fun b =>
      { b with elements := b.elements.push index }) :
    { m with heap, created := m.created.push (.at (.element index) source call.span) }.Lockstep
      programs (history ++ [Creation.mk index source call]) where
  host := h.host
  board := by
    obtain ⟨name, hboard⟩ := h.board
    refine ⟨name, ?_⟩
    rw [hboards, hboard]
    simp
  created := by
    rw [Created.at_call index source (hnode.length_pos hcall), h.created]
    simp
  once := by
    rw [List.map_append, List.pairwise_append]
    refine ⟨h.once, List.pairwise_singleton _ _, ?_⟩
    intro place hplace last hlast
    obtain ⟨c, hc, rfl⟩ := List.mem_map.1 hplace
    obtain rfl := List.mem_singleton.1 hlast
    exact Nat.lt_of_lt_of_le (h.there c hc) hnew
  there := by
    intro c hc
    rcases List.mem_append.1 hc with hc | hc
    · exact Nat.lt_of_lt_of_le (h.there c hc) (Nat.le_trans hnew (Nat.le_of_lt hindex))
    · obtain rfl := List.mem_singleton.1 hc
      exact hindex
  calls := by
    intro c hc
    rcases List.mem_append.1 hc with hc | hc
    · exact h.calls c hc
    · obtain rfl := List.mem_singleton.1 hc
      exact ⟨hcall, hnode⟩

/-- A creator that is called makes one element and keeps one record of it,
or fails and leaves all as it was. -/
theorem invokeCreator (h : m.Lockstep programs history) {source : Source} {call : Node}
    (hcall : call.IsCall) (hnode : programs.HasNode source call) (creator : Creator)
    (parents : List Value) (attributes : Option Fields) (callee : String) (naming : Option String) :
    let ended := BoardScript.invokeCreator creator parents attributes
      ⟨call.span, callee, naming, source⟩ m
    (∃ e, ended = .error e m) ∨ ∃ index k, ended = .ok (.host (.element index)) k ∧
      k.Lockstep programs (history ++ [Creation.mk index source call]) := by
  intro ended
  have hended : ended = _ := invokeCreator_eq creator parents attributes
    ⟨call.span, callee, naming, source⟩ m
  rw [hended]
  generalize CallSite.attributes _ attributes = fields
  cases hsession : creator.session with
  | succ session => exact .inl ⟨_, by rw [h.host]; rfl⟩
  | zero =>
      have hinvoke : m.host.invoke m.heap 0 creator.name parents fields
          = m.heap.create 0 creator.name parents fields := by
        rw [h.host]
        rfl
      rw [hinvoke]
      rcases m.heap.create_cases 0 creator.name parents fields with
        ⟨cause, hcreate⟩ | ⟨index, heap, hcreate, hnew, hindex, hboards⟩
      · exact .inl ⟨_, by rw [hcreate]⟩
      · exact .inr ⟨index, _, by rw [hcreate], h.add hcall hnode hnew hindex hboards⟩

/-- The last object that was made by a call which covers a line. -/
theorem objectAtLine (h : m.Lockstep programs history) (line : Nat) :
    m.objectAtLine line = (history.filter (·.covers line)).getLast?.map Creation.object := by
  rw [Machine.objectAtLine, h.created, List.getLast?_eq_head?_reverse, ← List.filter_reverse,
    List.head?_filter, ← List.map_reverse, List.find?_map, Option.map_map]
  rfl

end Machine.Lockstep

-- =================================================================== watch

/-- The closures of programs, whose code, if there is any, is made of their
literals. -/
def Programs.Fine (programs : Programs) (c : Closure) : Prop :=
  c.Coded ∧ programs.HasNode c.source c.literal.body

/-- What is to hold of machines in lockstep: only nodes of the programs are
evaluated, and behind what was on record there is on record what they made. -/
def Programs.watch (programs : Programs) (history : List Creation) : Watch where
  Fine := programs.Fine
  Code := programs.HasNode
  Inv past m := m.Lockstep programs (history ++ past)
  coded h := h.1
  body h := h.2
  below := .child
  make hbody hcoded _ _ _ := ⟨hcoded, hbody⟩
  quiet hquiet h := h.quiet hquiet
  create := by
    intro source node hnode hcall creator parents attributes callee naming past m h
    dsimp only
    rw [← List.append_assoc]
    rcases h.invokeCreator hcall hnode creator parents attributes callee naming with
      ⟨e, hended⟩ | ⟨index, k, hended, hk⟩
    · rw [hended]
      exact (List.append_nil _).symm ▸ h
    · rw [hended]
      exact hk

theorem Programs.HasText.watched {programs : Programs} {history : List Creation}
    {options : ParseOptions} {text : String} (h : programs.HasText options text) :
    (programs.watch history).Text options text :=
  fun root hroot => (h root hroot).node

namespace Machine

variable {programs : Programs} {history made : List Creation} {m n : Machine}

/-- A machine in lockstep on which closures are of the programs. -/
structure Tracked (programs : Programs) (history : List Creation) (m : Machine) : Prop where
  stores : m.Stores (Value.Stored programs.Fine)
  lockstep : m.Lockstep programs history

theorem watched_watch_iff :
    m.Watched (programs.watch history) made ↔ m.Tracked programs (history ++ made) :=
  ⟨fun h => ⟨h.stores, h.inv⟩, fun h => ⟨h.stores, h.lockstep⟩⟩

theorem Tracked.watched (h : m.Tracked programs history) : m.Watched (programs.watch history) [] :=
  watched_watch_iff.2 ((List.append_nil history).symm ▸ h)

/-- Machines later on, behind programs and expressions run one after the
other, any number of them, with what the runs have made. Nothing else is done
to the board. -/
inductive Runs (programs : Programs) (m : Machine) : List Creation → Machine → Prop
  | start : Runs programs m [] m
  /-- setting what has to do with neither values nor boards -/
  | set {made : List Creation} {n k : Machine} (h : Runs programs m made n) (hheap : k.heap = n.heap)
      (hscopes : k.scopes = n.scopes) (hhost : k.host = n.host) (hcreated : k.created = n.created) :
      Runs programs m made k
  | execute {made : List Creation} {n : Machine} (h : Runs programs m made n) (turns : Nat)
      {source : Source} {root : Node} (hroot : programs.Has source root) :
      Runs programs m (made ++ n.executeMakes turns source root) (n.executeWithin turns source root).2
  | run {made : List Creation} {n : Machine} (h : Runs programs m made n) (turns : Nat) {text : String}
      (htext : programs.HasText n.options.parsing text) :
      Runs programs m (made ++ n.runMakes turns text) (n.runWithin turns text).2
  | snippet {made : List Creation} {n : Machine} (h : Runs programs m made n) (turns : Nat)
      {expression : String} (htext : programs.HasText n.options.parsing (snippetText expression)) :
      Runs programs m (made ++ n.snippetMakes turns expression) (n.snippetWithin turns expression).2

theorem tracked_board (name : String) : (withBoard name).Tracked programs [] := by
  refine ⟨⟨?_, ?_⟩, rfl, ⟨name, rfl⟩, rfl, .nil, List.forall_mem_nil _, List.forall_mem_nil _⟩
  · refine ⟨?_, ?_, ?_⟩ <;> exact fun _ h => absurd h (Array.not_mem_empty _)
  · intro s hs p hp
    obtain rfl : s = ⟨none, []⟩ := List.mem_singleton.1 (Array.mem_toList_iff.2 hs)
    cases hp

theorem Tracked.runs (h : m.Tracked programs history) (hn : m.Runs programs made n) :
    n.Tracked programs (history ++ made) := by
  rw [← watched_watch_iff]
  induction hn with
  | start => exact h.watched
  | set _ hheap hscopes hhost hcreated ih =>
      exact ih.of_table hheap (congrArg Scopes.table hscopes) hhost hcreated
  | execute _ turns hroot ih =>
      exact (ih.executeHooked (Hooks.standardOn_standard _) turns (programs.proper hroot) hroot.node).2.1
  | run _ turns htext ih => exact (ih.runWithin turns htext.watched).1
  | snippet _ turns htext ih =>
      exact (ih.snippetHooked (Hooks.standardOn_standard _) turns htext.watched).2.1

/-- A node of the programs, evaluated on a machine in lockstep. -/
theorem Tracked.eval (h : m.Tracked programs history) (turns levels : Nat) {source : Source}
    {node : Node} (hnode : programs.HasNode source node) (naming : Option String) :
    let env : Env := ⟨turns, callClosure .standard turns levels, checkCancelled, source⟩
    (after (node.eval env naming m)).Lockstep programs
      (history ++ node.makes env (callClosureMakes turns levels) naming m) := by
  intro env
  have henv : env.Agrees (programs.watch history) env (callClosureMakes turns levels) :=
    agrees_standard turns levels source
  exact (Node.agrees henv node hnode naming [] m h.watched.stores h.watched.inv).2.2

/-- What code closures have does not matter. -/
theorem Lockstep.twin (h : m.Lockstep programs history) (htwins : m.Twins n) :
    n.Lockstep programs history where
  host := by
    have hhost : m.host = n.host := htwins.read fun k => k.host
    exact hhost ▸ h.host
  board := by
    have hboards : m.heap.boards = n.heap.boards := htwins.read fun k => k.heap.boards
    exact hboards ▸ h.board
  created := by
    have hcreated : m.created.map id = n.created.map id := htwins.read fun k => k.created
    rw [Array.map_id, Array.map_id] at hcreated
    exact hcreated ▸ h.created
  once := h.once
  there c hc := by
    have hsize : m.heap.elements.size = n.heap.elements.size := by
      have hmapped := htwins.read fun k => k.heap.elements.size
      simpa [recode] using hmapped
    exact hsize ▸ h.there c hc
  calls := h.calls

end Machine

/-- In front of a new board that nothing else uses, what programs make is
recorded in step with the board, however many are run, in either mode and
whether they fail or not: the elements ever made there, removed ones among
them, are those that the calls made which were evaluated, and are on record
once each, in that order, with the first and the last line of the call that
made them, in the text that this call was read from. Asked for a line, the
record has the last object made by a call that covers it. Later runs only add
to what is there, and so does each node that is evaluated; hooks that differ
from the standard ones on other machines are not noticed. What code closures
have does not matter, and so a run from code adds what the calls make that
are evaluated along the tree. A creator that is called adds one element with
its record, or fails and changes nothing. -/
theorem created_in_lockstep {programs : Programs} {name : String} {history : List Creation}
    {m : Machine} (h : (Machine.withBoard name).Runs programs history m) :
    m.Lockstep programs history ∧
    (∀ line, m.objectAtLine line
      = (history.filter (·.covers line)).getLast?.map Creation.object) ∧
    (∀ made n, m.Runs programs made n → n.Lockstep programs (history ++ made)) ∧
    (∀ past n, Machine.Tracked programs past n → ∀ turns levels source node naming,
      programs.HasNode source node →
        let env : Env := ⟨turns, callClosure .standard turns levels, checkCancelled, source⟩
        (after (node.eval env naming n)).Lockstep programs
          (past ++ node.makes env (callClosureMakes turns levels) naming n)) ∧
    (∀ hooks : Hooks, hooks.StandardOn (fun n => ∃ made, n.Tracked programs (history ++ made)) →
      ∀ turns,
        (∀ source root, programs.Has source root →
          m.executeHooked hooks turns source root = m.executeWithin turns source root) ∧
        ∀ expression, programs.HasText m.options.parsing (Machine.snippetText expression) →
          m.snippetHooked hooks turns expression = m.snippetWithin turns expression) ∧
    (∀ k, m.Twins k → k.Lockstep programs history ∧
      ∀ source root chunk options, parse options source = ⟨some root, []⟩ →
        compileScript source root = .ok chunk → programs.Has source root →
        (∀ turns, (m.executeWithin turns source root).2.cancelled = false) →
        (∀ turns, (k.executeWithin turns source root).2.cancelled = false) →
        ∀ turns turns', (m.executeWithin turns source root).1 ≠ .error .exhausted →
          (k.executeWithin turns' source root).1 ≠ .error .exhausted →
          (k.executeWithin turns' source root).2.Lockstep programs
            (history ++ m.executeMakes turns source root)) ∧
    ∀ source call, programs.HasNode source call → call.IsCall →
      ∀ creator parents attributes callee naming (n : Machine) past, n.Lockstep programs past →
        let ended := invokeCreator creator parents attributes
          ⟨call.span, callee, naming, source⟩ n
        (∃ e, ended = .error e n) ∨ ∃ index k, ended = .ok (.host (.element index)) k ∧
          k.Lockstep programs (past ++ [⟨index, source, call⟩]) := by
  have hm : m.Tracked programs history := (Machine.tracked_board name).runs h
  refine ⟨hm.lockstep, hm.lockstep.objectAtLine, fun made n hn => (hm.runs hn).lockstep,
    fun past n hn turns levels source node naming hnode => hn.eval turns levels hnode naming,
    fun hooks hh turns => ?_, fun k htwins => ⟨hm.lockstep.twin htwins, ?_⟩,
    fun source call hnode hcall creator parents attributes callee naming n past hn =>
      hn.invokeCreator hcall hnode creator parents attributes callee naming⟩
  · have hwatch : hooks.StandardOn (Machine.InWatch (programs.watch history)) :=
      ⟨fun n span ⟨made, hn⟩ => hh.ask n span ⟨made, Machine.watched_watch_iff.1 hn⟩,
        fun n site ⟨made, hn⟩ => hh.refuse n site ⟨made, Machine.watched_watch_iff.1 hn⟩⟩
    exact ⟨fun source root hroot =>
        (hm.watched.executeHooked hwatch turns (programs.proper hroot) hroot.node).1,
      fun expression htext => (hm.watched.snippetHooked hwatch turns htext.watched).1⟩
  · intro source root chunk options hparse hchunk hroot hgoes hgoes' turns turns' hends hends'
    have hlater := (hm.runs (.execute .start turns hroot)).lockstep
    exact hlater.twin ((htwins.agree hparse hchunk hgoes hgoes').2 turns turns' hends hends').2

/-- A segment between two points, the call of each on a line of its own. -/
def segmentText : String := "segment(\npoint(1, 1),\npoint(1, 1)\n)"

namespace Node

/-- The call `point(1, 1)` at an offset. -/
def pointAt (start : Nat) : Node :=
  .call (.identifier "point" ⟨start, 5⟩)
    [.numeral "1" .integer ⟨start + 6, 1⟩, .numeral "1" .integer ⟨start + 9, 1⟩] ⟨start, 11⟩

/-- The call that `segmentText` is. -/
def segmentOnLines : Node :=
  .call (.identifier "segment" ⟨0, 7⟩) [.pointAt 9, .pointAt 22] ⟨0, 35⟩

theorem proper_call {name : String} {args : List Node} (hname : Lexical .identifier name)
    (hargs : ∀ arg ∈ args, arg.isExpression = true ∧ arg.Proper Lexical) (s t : Span) :
    (Node.call (.identifier name s) args t).Proper Lexical := by
  refine .intro ⟨rfl, fun arg harg => (hargs arg harg).1⟩ fun child hchild => ?_
  rcases List.mem_cons.1 hchild with rfl | hchild
  · exact .intro hname nofun
  · exact (hargs child hchild).2

theorem wide_call {name : String} {args : List Node} {s t : Span} (ht : 0 < t.length)
    (hargs : ∀ arg ∈ args, arg.Wide) :
    (Node.call (.identifier name s) args t).Wide := by
  refine .intro (fun _ => ht) fun child hchild => ?_
  rcases List.mem_cons.1 hchild with rfl | hchild
  · exact .of_children nofun nofun
  · exact hargs child hchild

theorem proper_segmentOnLines : segmentOnLines.Proper Lexical := by
  have hone (s : Span) : (Node.numeral "1" .integer s).Proper Lexical :=
    .intro ⟨.integer, by decide, rfl, rfl⟩ nofun
  have hpoint (start : Nat) : (pointAt start).Proper Lexical := by
    refine proper_call ⟨.word, by decide, rfl, rfl⟩ ?_ _ _
    simp only [List.forall_mem_cons]
    exact ⟨⟨rfl, hone _⟩, ⟨rfl, hone _⟩, nofun⟩
  refine proper_call ⟨.word, by decide, rfl, rfl⟩ ?_ _ _
  simp only [List.forall_mem_cons]
  exact ⟨⟨rfl, hpoint 9⟩, ⟨rfl, hpoint 22⟩, nofun⟩

theorem wide_segmentOnLines : segmentOnLines.Wide := by
  have hpoint (start : Nat) : (pointAt start).Wide := by
    refine wide_call (Nat.succ_pos 10) ?_
    simp only [List.forall_mem_cons]
    exact ⟨.of_children nofun nofun, .of_children nofun nofun, nofun⟩
  refine wide_call (by decide) ?_
  simp only [List.forall_mem_cons]
  exact ⟨hpoint 9, hpoint 22, nofun⟩

end Node

set_option maxRecDepth 20000 in
theorem executeMakes_segmentOnLines :
    ((Machine.withBoard "board").executeMakes 20 (.ofText segmentText) .segmentOnLines).map
        (fun c => (c.element, c.firstLine, c.lastLine))
      = [(1, 2, 2), (3, 3, 3), (4, 1, 4)] := by
  rw [Machine.executeMakes, Machine.actionMakes]
  simp only [Node.segmentOnLines, Node.pointAt, Node.eval, evalAll, Node.makes, allMake]
  unfold evalCallMakes evalCall callValue callMakes invokeCreator Host.invoke Heap.create Heap.make
    Heap.makePoint Heap.makeSegment segmentText
  generalize numeralValue "1" = x
  generalize (0.0 : Float) = z
  cbv

/-- On a new board the segment is the third thing made, behind its ends. It
is on record with all four lines of its call, and each end with the line of
its own. -/
theorem created_in_lockstep_segment :
    let source := Source.ofText segmentText
    let programs := Programs.single source Node.proper_segmentOnLines Node.wide_segmentOnLines
    let m := ((Machine.withBoard "board").executeWithin 20 source .segmentOnLines).2
    ∃ history, (Machine.withBoard "board").Runs programs history m ∧
      history.map (fun c => (c.element, c.firstLine, c.lastLine)) = [(1, 2, 2), (3, 3, 3), (4, 1, 4)] ∧
      m.Lockstep programs history ∧
      ∀ line, m.objectAtLine line
        = (history.filter (·.covers line)).getLast?.map Creation.object := by
  intro source programs m
  have hroot : programs.Has source .segmentOnLines := ⟨rfl, rfl⟩
  have hruns : (Machine.withBoard "board").Runs programs _ m := .execute .start 20 hroot
  have hm := created_in_lockstep hruns
  exact ⟨_, hruns, executeMakes_segmentOnLines, hm.1, hm.2.1⟩

end BoardScript
