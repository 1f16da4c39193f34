/-
Names that stand in a tree as expressions (`Node.Mentions`). What a body may
look up are these and the texts that `$` is given (`mem_namesLookedUp`). The
other names in a tree, of variables that are assigned to, of properties, of
keys, of parameters and of boards, are no nodes; they can be replaced by any
others, and the names that stand as expressions stay what they are
(`mentions_relabel`).
-/
import BoardScript.Proofs.Program.Recast
import Mathlib.Data.List.Basic

namespace BoardScript

namespace Node

variable {node : Node} {name : String}

-- =============================================================== mentions

/-- Whether a name stands in a tree as an expression. -/
def Mentions (node : Node) (name : String) : Prop := ∃ span, identifier name span ∈ node.preorder

/-- Whether a text is the first argument of a call of `$` in a tree. -/
def Selects (node : Node) (text : String) : Prop :=
  ∃ dollar literal rest span,
    call (identifier "$" dollar) (string text literal :: rest) span ∈ node.preorder ∨
    ∃ attributes, callWith (identifier "$" dollar) (string text literal :: rest) attributes span
      ∈ node.preorder

theorem name?_eq_some : node.name? = some name ↔ ∃ span, node = identifier name span := by
  constructor
  · intro h
    cases node with
    | identifier other span => exact ⟨span, congrArg (identifier · span) (Option.some.inj h)⟩
    | _ => cases h
  · rintro ⟨span, rfl⟩
    rfl

/-- A name is mentioned by a node that is nothing but the name, and below
those that it is mentioned below. -/
theorem mentions_iff : node.Mentions name ↔
    node.name? = some name ∨ ∃ child ∈ node.children, child.Mentions name := by
  unfold Mentions
  rw [preorder_eq, name?_eq_some]
  constructor
  · rintro ⟨span, h⟩
    rcases List.mem_cons.1 h with rfl | h
    · exact .inl ⟨span, rfl⟩
    · obtain ⟨child, hchild, hmem⟩ := List.mem_flatMap.1 h
      exact .inr ⟨child, hchild, span, hmem⟩
  · rintro (⟨span, rfl⟩ | ⟨child, hchild, span, hmem⟩)
    · exact ⟨span, List.mem_cons_self⟩
    · exact ⟨span, List.mem_cons_of_mem _ (List.mem_flatMap.2 ⟨child, hchild, hmem⟩)⟩

theorem Mentions.of_child {child : Node} (hchild : child ∈ node.children)
    (h : child.Mentions name) : node.Mentions name :=
  mentions_iff.2 (.inr ⟨child, hchild, h⟩)

-- ========================================================== names looked up

theorem mem_insertSorted {text : String} {names : List String} :
    name ∈ insertSorted text names ↔ name = text ∨ name ∈ names := by
  induction names with
  | nil => rw [insertSorted, List.mem_singleton, or_iff_left List.not_mem_nil]
  | cons other rest ih =>
      rw [insertSorted]
      split
      · rename_i heq
        rw [heq, List.mem_cons, ← or_assoc, or_self]
      split
      · exact List.mem_cons
      · rw [List.mem_cons, ih, List.mem_cons]
        exact or_left_comm

/-- What a node looks up: the name that it is, or the text that it gives to
`$`. -/
theorem lookedUp_eq_some : node.lookedUp = some name ↔ node.name? = some name ∨
    ∃ dollar literal rest span,
      node = call (identifier "$" dollar) (string name literal :: rest) span ∨
      ∃ attributes,
        node = callWith (identifier "$" dollar) (string name literal :: rest) attributes span := by
  constructor
  · intro h
    unfold lookedUp at h
    split at h
    · exact .inl h
    · cases h
      exact .inr ⟨_, _, _, _, .inl rfl⟩
    · cases h
      exact .inr ⟨_, _, _, _, .inr ⟨_, rfl⟩⟩
    · cases h
  · rintro (h | ⟨dollar, literal, rest, span, rfl | ⟨attributes, rfl⟩⟩)
    · obtain ⟨span, rfl⟩ := name?_eq_some.1 h
      rfl
    · rfl
    · rfl

/-- A body may look up what it mentions, and what it gives to `$`. -/
theorem mem_namesLookedUp : name ∈ node.namesLookedUp ↔ node.Mentions name ∨ node.Selects name := by
  have hfold : ∀ texts names : List String,
      name ∈ texts.foldl (fun names text => insertSorted text names) names ↔
        name ∈ texts ∨ name ∈ names := by
    intro texts
    induction texts with
    | nil => simp
    | cons text texts ih =>
        intro names
        rw [List.foldl_cons, ih, mem_insertSorted, List.mem_cons, or_left_comm, or_assoc]
  unfold namesLookedUp
  rw [hfold, or_iff_left List.not_mem_nil, List.mem_filterMap]
  constructor
  · rintro ⟨below, hmem, h⟩
    rcases lookedUp_eq_some.1 h with h | ⟨dollar, literal, rest, span, rfl | ⟨attributes, rfl⟩⟩
    · obtain ⟨span, rfl⟩ := name?_eq_some.1 h
      exact .inl ⟨span, hmem⟩
    · exact .inr ⟨dollar, literal, rest, span, .inl hmem⟩
    · exact .inr ⟨dollar, literal, rest, span, .inr ⟨attributes, hmem⟩⟩
  · rintro (⟨span, hmem⟩ | ⟨dollar, literal, rest, span, hmem | ⟨attributes, hmem⟩⟩)
    · exact ⟨_, hmem, rfl⟩
    · exact ⟨_, hmem, rfl⟩
    · exact ⟨_, hmem, rfl⟩

end Node

-- ============================================================= other names

mutual

/-- The tree with other names where names are no expressions: for variables
that are assigned to, properties, keys, parameters and boards. -/
def Node.relabel (f : Name → Name) : Node → Node
  | .block statements s => .block (relabelAll f statements) s
  | .assign name value s => .assign (f name) (value.relabel f) s
  | .assignProperty owner name value s =>
      .assignProperty (owner.relabel f) (f name) (value.relabel f) s
  | .assignIndex base index value s =>
      .assignIndex (base.relabel f) (index.relabel f) (value.relabel f) s
  | .ifThen condition yes s => .ifThen (condition.relabel f) (yes.relabel f) s
  | .ifElse condition yes no s =>
      .ifElse (condition.relabel f) (yes.relabel f) (no.relabel f) s
  | .conditional condition yes no s =>
      .conditional (condition.relabel f) (yes.relabel f) (no.relabel f) s
  | .whileLoop condition body s => .whileLoop (condition.relabel f) (body.relabel f) s
  | .doLoop body condition s => .doLoop (body.relabel f) (condition.relabel f) s
  | .forLoop init condition step body s =>
      .forLoop (init.relabel f) (condition.relabel f) (step.relabel f) (body.relabel f) s
  | .useBoard name s => .useBoard (f name) s
  | .delete operand s => .delete (operand.relabel f) s
  | .returnNothing s => .returnNothing s
  | .returnValue value s => .returnValue (value.relabel f) s
  | .expression value s => .expression (value.relabel f) s
  | .function params body literal s => .function (params.map f) (body.relabel f) literal s
  | .map params body literal s => .map (params.map f) (body.relabel f) literal s
  | .call callee args s => .call (callee.relabel f) (relabelAll f args) s
  | .callWith callee args attributes s =>
      .callWith (callee.relabel f) (relabelAll f args) (relabelProperties f attributes) s
  | .array items s => .array (relabelAll f items) s
  | .object properties s => .object (relabelProperties f properties) s
  | .index base index s => .index (base.relabel f) (index.relabel f) s
  | .binary operator left right s => .binary operator (left.relabel f) (right.relabel f) s
  | .unary operator operand s => .unary operator (operand.relabel f) s
  | .identifier name s => .identifier name s
  | .numeral text kind s => .numeral text kind s
  | .string value s => .string value s
  | .boolean value s => .boolean value s
  | .coordinate axis operand s => .coordinate axis (operand.relabel f) s
  | .property owner name s => .property (owner.relabel f) (f name) s

def relabelAll (f : Name → Name) : List Node → List Node
  | [] => []
  | node :: rest => node.relabel f :: relabelAll f rest

def relabelProperties (f : Name → Name) : List Property → List Property
  | [] => []
  | .mk name value :: rest => .mk (f name) (value.relabel f) :: relabelProperties f rest

end

/-- A literal with other parameters, and other names in its body. -/
def FunctionLiteral.relabel (f : Name → Name) (literal : FunctionLiteral) : FunctionLiteral :=
  { literal with params := literal.params.map f, body := literal.body.relabel f }

section

variable (f : Name → Name)

@[simp] theorem relabelAll_eq_map (nodes : List Node) :
    relabelAll f nodes = nodes.map (Node.relabel f) := by
  induction nodes with
  | nil => rfl
  | cons node rest ih => rw [relabelAll, ih, List.map_cons]

@[simp] theorem values_relabelProperties (properties : List Property) :
    (relabelProperties f properties).map Property.value
      = (properties.map Property.value).map (Node.relabel f) := by
  induction properties with
  | nil => rfl
  | cons property rest ih =>
      obtain ⟨name, value⟩ := property
      simp only [relabelProperties, List.map_cons, ih, Property.value]

theorem children_relabel (node : Node) :
    (node.relabel f).children = node.children.map (Node.relabel f) := by
  cases node <;> simp [Node.relabel, Node.children, -List.map_map]

theorem relabel_eq_identifier {node : Node} {name : String} {span : Span} :
    node.relabel f = .identifier name span ↔ node = .identifier name span := by
  cases node <;> simp [Node.relabel]

theorem lookedUp_relabel (node : Node) : (node.relabel f).lookedUp = node.lookedUp := by
  have hselected (callee : Node) (args : List Node) :
      (callee.relabel f).selected (relabelAll f args) = callee.selected args := by
    have hname : (callee.relabel f).name? = callee.name? := by cases callee <;> rfl
    rw [Node.selected, Node.selected, hname]
    cases args with
    | nil => rfl
    | cons first rest => cases first <;> rfl
  cases node with
  | call callee args s => rw [Node.relabel, lookedUp_call, lookedUp_call, hselected]
  | callWith callee args attributes s =>
      rw [Node.relabel, lookedUp_callWith, lookedUp_callWith, hselected]
  | _ => rfl

theorem preorder_relabel (node : Node) :
    (node.relabel f).preorder = node.preorder.map (Node.relabel f) := by
  have hchildren : node.children.flatMap (fun child => (child.relabel f).preorder)
      = node.children.flatMap (fun child => child.preorder.map (Node.relabel f)) :=
    List.flatMap_congr fun child hchild => preorder_relabel child
  rw [preorder_eq, preorder_eq node, children_relabel, List.map_cons, List.flatMap_map,
    List.map_flatMap, hchildren]
termination_by sizeOf node
decreasing_by exact Node.child_lt hchild

theorem mentions_relabel {node : Node} {name : String} :
    (node.relabel f).Mentions name ↔ node.Mentions name := by
  unfold Node.Mentions
  simp only [preorder_relabel, List.mem_map, relabel_eq_identifier, exists_eq_right]

theorem namesLookedUp_relabel (node : Node) :
    (node.relabel f).namesLookedUp = node.namesLookedUp := by
  have hlookups : (node.relabel f).preorder.filterMap Node.lookedUp
      = node.preorder.filterMap Node.lookedUp := by
    rw [preorder_relabel, List.filterMap_map]
    exact congrArg (List.filterMap · node.preorder) (funext (lookedUp_relabel f))
  rw [Node.namesLookedUp, Node.namesLookedUp, hlookups]

end

end BoardScript
