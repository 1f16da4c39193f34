/-
What the check of map bodies looks at. It goes by the form of a node
(`Node.isMath`) and on to the nodes below it, all but what is called
(`Node.operands`). A body passes just when every node that is reached in that
way has a form allowed in a formula, and a body that does not is refused for
a node in it (`notFormula_iff`). What is called is looked at by its form
alone: where it is a property, there may be anything below it.
-/
import BoardScript.Proofs.Program.Spanned
import BoardScript.Proofs.Program.Wrapped

namespace BoardScript

open Grammar

namespace Node

-- =================================================================== forms

/-- Whether a node can be called in a formula. -/
def isCallee : Node → Bool
  | identifier .. | property .. => true
  | _ => false

/-- Whether a node can stand in a formula, whatever is below it. -/
def isMath : Node → Bool
  | numeral .. | identifier .. | coordinate .. | property .. => true
  | binary operator .. => operator.isArithmetic
  | unary operator .. => operator = .negate
  | call callee .. => callee.isCallee
  | _ => false

/-- The nodes below a node, but not what it calls. -/
def operands : Node → List Node
  | call _ args _ => args
  | node => node.children

/-- The node for which a node that is no formula is refused. -/
def blamed : Node → Node
  | call callee _ _ => callee
  | node => node

/-- A node lies below another, and not in what is called on the way. -/
abbrev Examines : Node → Node → Prop := Relation.ReflTransGen fun node below => below ∈ node.operands

theorem mem_children_of_operands {node below : Node} (h : below ∈ node.operands) :
    below ∈ node.children := by
  cases node with
  | call callee args s => exact List.mem_cons_of_mem _ h
  | _ => exact h

theorem operand_lt {node below : Node} (h : below ∈ node.operands) : sizeOf below < sizeOf node :=
  child_lt (mem_children_of_operands h)

theorem mem_preorder_self (node : Node) : node ∈ node.preorder := by
  rw [preorder_eq]
  exact List.mem_cons_self

theorem Examines.mem_preorder {node below : Node} (h : node.Examines below) :
    below ∈ node.preorder := by
  induction h with
  | refl => exact mem_preorder_self node
  | tail _ hstep ih => exact mem_preorder_child ih (mem_children_of_operands hstep)

theorem mem_preorder_trans {root node below : Node} (hnode : node ∈ root.preorder)
    (h : below ∈ node.preorder) : below ∈ root.preorder :=
  of_preorder mem_preorder_child hnode h

/-- The node that is blamed lies in the one that is refused. -/
theorem blamed_mem_preorder (node : Node) : node.blamed ∈ node.preorder := by
  cases node with
  | call callee args s => exact mem_preorder_child (mem_preorder_self _) List.mem_cons_self
  | _ => exact mem_preorder_self _

-- =================================================================== check

theorem anyNotFormula_eq (nodes : List Node) : anyNotFormula nodes = nodes.findSome? notFormula := by
  induction nodes with
  | nil => rfl
  | cons node rest ih =>
      rw [anyNotFormula, ih, List.findSome?_cons]
      cases node.notFormula <;> rfl

/-- One step of the check. -/
theorem notFormula_eq (node : Node) :
    node.notFormula = if node.isMath then node.operands.findSome? notFormula else some node.blamed := by
  cases node with
  | binary operator left right s =>
      cases hoperator : operator.isArithmetic with
      | false => simp [notFormula, isMath, blamed, hoperator]
      | true =>
          simp only [notFormula, isMath, operands, children, hoperator, if_true, List.findSome?_cons,
            List.findSome?_nil]
          cases left.notFormula <;> cases right.notFormula <;> rfl
  | unary operator operand s => cases operator <;> simp [notFormula, isMath, operands, children, blamed]
  | call callee args s =>
      cases callee <;> simp [notFormula, isMath, isCallee, operands, blamed, anyNotFormula_eq]
  | coordinate axis operand s => simp [notFormula, isMath, operands, children]
  | property owner name s => simp [notFormula, isMath, operands, children]
  | _ => rfl

/-- A body passes just when all that is looked at has a form allowed. -/
theorem notFormula_eq_none (node : Node) :
    node.notFormula = none ↔ ∀ below, node.Examines below → below.isMath = true := by
  rw [notFormula_eq]
  constructor
  · intro h below hbelow
    split at h
    · rename_i hmath
      rw [List.findSome?_eq_none_iff] at h
      rcases Relation.ReflTransGen.cases_head hbelow with rfl | ⟨first, hfirst, hrest⟩
      · exact hmath
      · exact (notFormula_eq_none first).1 (h first hfirst) below hrest
    · cases h
  · intro h
    rw [if_pos (h node .refl), List.findSome?_eq_none_iff]
    intro first hfirst
    exact (notFormula_eq_none first).2 fun below hbelow => h below (.head hfirst hbelow)
termination_by sizeOf node
decreasing_by all_goals exact operand_lt hfirst

/-- What a body is refused for is the fault of a node that is looked at. -/
theorem exists_refused (node found : Node) (h : node.notFormula = some found) :
    ∃ refused, node.Examines refused ∧ refused.isMath = false ∧ found = refused.blamed := by
  rw [notFormula_eq] at h
  split at h
  · obtain ⟨first, hfirst, hfound⟩ := List.exists_of_findSome?_eq_some h
    obtain ⟨refused, hrefused, hform, hblamed⟩ := exists_refused first found hfound
    exact ⟨refused, .head hfirst hrefused, hform, hblamed⟩
  · rename_i hmath
    exact ⟨node, .refl, by simpa using hmath, (Option.some.inj h).symm⟩
termination_by sizeOf node
decreasing_by exact operand_lt hfirst

/-- Of the nodes directly below a node only what it calls is passed over. -/
theorem operand_or_callee {node child : Node} (h : child ∈ node.children) :
    child ∈ node.operands ∨ ∃ args s, node = call child args s := by
  cases node with
  | call callee args s =>
      rcases List.mem_cons.1 h with rfl | h
      · exact .inr ⟨args, s, rfl⟩
      · exact .inl h
  | _ => exact .inl h

/-- What lies in a node is looked at from there, or from something that is
called in it. -/
theorem examines_or_called {node below : Node} (h : below ∈ node.preorder) :
    node.Examines below ∨
      ∃ callee args s, call callee args s ∈ node.preorder ∧ callee.Examines below := by
  rw [preorder_eq] at h
  rcases List.mem_cons.1 h with rfl | h
  · exact .inl .refl
  · obtain ⟨child, hchild, hbelow⟩ := List.mem_flatMap.1 h
    have hinside : child ∈ node.preorder := mem_preorder_child (mem_preorder_self _) hchild
    rcases examines_or_called hbelow with hexamined | ⟨callee, args, s, hcall, hexamined⟩
    · rcases operand_or_callee hchild with hoperand | ⟨args, s, rfl⟩
      · exact .inl (.head hoperand hexamined)
      · exact .inr ⟨child, args, s, mem_preorder_self _, hexamined⟩
    · exact .inr ⟨callee, args, s, mem_preorder_trans hinside hcall, hexamined⟩
termination_by sizeOf node
decreasing_by exact child_lt hchild

/-- The check of map bodies. A body passes just when all that is looked at
has a form allowed in a formula, and all that lies in it has one just when
what is called in it passes too. A body that does not pass is refused for a
node that lies in it, by the fault of one that is looked at. -/
theorem notFormula_iff (node : Node) :
    (node.notFormula = none ↔ ∀ below, node.Examines below → below.isMath = true) ∧
    ((∀ below ∈ node.preorder, below.isMath = true) ↔ node.notFormula = none ∧
      ∀ callee args s, call callee args s ∈ node.preorder → callee.notFormula = none) ∧
    ∀ found, node.notFormula = some found → found ∈ node.preorder ∧
      ∃ refused, node.Examines refused ∧ refused.isMath = false ∧ found = refused.blamed := by
  refine ⟨notFormula_eq_none node, ⟨fun h => ⟨?_, ?_⟩, ?_⟩, fun found h => ?_⟩
  · exact (notFormula_eq_none node).2 fun below hbelow => h below hbelow.mem_preorder
  · intro callee args s hcall
    refine (notFormula_eq_none callee).2 fun below hbelow => h below ?_
    have hcallee : callee ∈ node.preorder := mem_preorder_child hcall List.mem_cons_self
    exact mem_preorder_trans hcallee hbelow.mem_preorder
  · rintro ⟨hnode, hcallees⟩ below hbelow
    rcases examines_or_called hbelow with hexamined | ⟨callee, args, s, hcall, hexamined⟩
    · exact (notFormula_eq_none node).1 hnode below hexamined
    · exact (notFormula_eq_none callee).1 (hcallees callee args s hcall) below hexamined
  · obtain ⟨refused, hrefused, hform, rfl⟩ := exists_refused node found h
    exact ⟨mem_preorder_trans hrefused.mem_preorder (blamed_mem_preorder refused), refused, hrefused,
      hform, rfl⟩

/-- The call of a method on an array. -/
def callOnArray : Node := .call (.property (.array [] ⟨0, 2⟩) ⟨"f", ⟨3, 1⟩⟩ ⟨0, 4⟩) [] ⟨0, 6⟩

/-- The tokens `[].f()` are an expression, the call of a property of an
array. -/
theorem exists_phrase_callOnArray : ∃ d : Phrase (.nonTerminal .expression),
    d.Nearest ∧ (∀ next, d.meaning next = some (.node callOnArray)) ∧
      Token.scan "[].f();" = d.tokens ++
        [⟨.semicolon, ";", ⟨6, 1⟩, ⟨1, 7⟩⟩, ⟨.endOfInput, "", ⟨7, 0⟩, ⟨1, 8⟩⟩] := by
  refine ⟨
    let nothing : Phrase (.nonTerminal .arguments) := .node 70 rfl .nil
    let array : Phrase (.nonTerminal .value) :=
      .node 63 rfl (.cons (.token ⟨.leftBracket, "[", ⟨0, 1⟩, ⟨1, 1⟩⟩)
        (.cons nothing (.cons (.token ⟨.rightBracket, "]", ⟨1, 1⟩, ⟨1, 2⟩⟩) .nil)))
    let base : Phrase (.nonTerminal .access) := .node 53 rfl (.cons array .nil)
    let word : Phrase (.nonTerminal .propertyName) :=
      .node 78 rfl (.cons (.token ⟨.identifier, "f", ⟨3, 1⟩, ⟨1, 4⟩⟩) .nil)
    let property : Phrase (.nonTerminal .access) :=
      .node 50 rfl (.cons base (.cons (.token ⟨.dot, ".", ⟨2, 1⟩, ⟨1, 3⟩⟩) (.cons word .nil)))
    let call : Phrase (.nonTerminal .access) :=
      .node 51 rfl (.cons property (.cons (.token ⟨.leftParen, "(", ⟨4, 1⟩, ⟨1, 5⟩⟩)
        (.cons nothing (.cons (.token ⟨.rightParen, ")", ⟨5, 1⟩, ⟨1, 6⟩⟩) .nil))))
    -- the rules that lead from each kind of expression to the next
    let power : Phrase (.nonTerminal .power) := .node 48 rfl (.cons call .nil)
    let unary : Phrase (.nonTerminal .unary) := .node 46 rfl (.cons power .nil)
    let product : Phrase (.nonTerminal .product) := .node 42 rfl (.cons unary .nil)
    let sum : Phrase (.nonTerminal .sum) := .node 38 rfl (.cons product .nil)
    let comparison : Phrase (.nonTerminal .comparison) := .node 35 rfl (.cons sum .nil)
    let conjunction : Phrase (.nonTerminal .conjunction) := .node 27 rfl (.cons comparison .nil)
    let disjunction : Phrase (.nonTerminal .disjunction) := .node 25 rfl (.cons conjunction .nil)
    .node 21 rfl (.cons disjunction .nil), ?_, fun _ => ?_, ?_⟩
  · simp [Phrase.Nearest, Phrases.Nearest, ifElseRule]
  · rfl
  · rw [Token.scan_eq]
    cbv

theorem parse_callOnArray :
    ∃ statement whole, parse {} (.ofText "[].f();")
      = ⟨some (.block [.expression callOnArray statement] whole), []⟩ := by
  obtain ⟨d, hnear, hmeaning, hscan⟩ := exists_phrase_callOnArray
  let semicolon : Token := ⟨.semicolon, ";", ⟨6, 1⟩, ⟨1, 7⟩⟩
  let eof : Token := ⟨.endOfInput, "", ⟨7, 0⟩, ⟨1, 8⟩⟩
  obtain ⟨statement, hstatement⟩ :=
    d.exists_meaning_asStatement semicolon rfl (hmeaning semicolon.span.start) eof.span.start
  obtain ⟨whole, hparse⟩ := parseTokens_statement {} (.ofText "[].f();")
    (d.nearest_asStatement semicolon rfl hnear) (show eof.kind = .endOfInput from rfl) hstatement
  refine ⟨statement, whole, ?_⟩
  rw [Phrase.tokens_asStatement, List.append_assoc, List.singleton_append, ← hscan] at hparse
  exact hparse

/-- A call passes with an array under what it calls. -/
theorem notFormula_misses_callee :
    ∃ node statement whole,
      parse {} (.ofText "[].f();") = ⟨some (.block [.expression node statement] whole), []⟩ ∧
      node.notFormula = none ∧ ∃ below ∈ node.preorder, below.isMath = false := by
  obtain ⟨statement, whole, hparse⟩ := parse_callOnArray
  refine ⟨callOnArray, statement, whole, hparse, rfl, .array [] ⟨0, 2⟩, ?_, rfl⟩
  exact mem_preorder_child (mem_preorder_child (mem_preorder_self _) List.mem_cons_self)
    List.mem_cons_self

end Node

end BoardScript
