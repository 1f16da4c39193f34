/-
The same program at other places. Recasting a tree moves every span, and
may put braces around the bodies of conditions and loops that have none.
Neither shows in the text of a program (`surface_recast`), in the names it
looks up (`namesLookedUp_recast`) or in whether it is a formula
(`notFormula_recast`).
-/
import BoardScript.Program.Analysis
import BoardScript.Program.Surface
import Mathlib.Data.List.Forall2

namespace BoardScript

open Surface

def Name.recast (move : Span → Span) (name : Name) : Name := ⟨name.text, move name.span⟩

mutual

/-- The tree with every span moved and, if `braced`, with a block for each
body of a condition or a loop. -/
def Node.recast (move : Span → Span) (braced : Bool) : Node → Node
  | .block statements s => .block (recastAll move braced statements) (move s)
  | .assign name value s => .assign (name.recast move) (value.recast move braced) (move s)
  | .assignProperty owner name value s =>
      .assignProperty (owner.recast move braced) (name.recast move) (value.recast move braced) (move s)
  | .assignIndex base index value s =>
      .assignIndex (base.recast move braced) (index.recast move braced) (value.recast move braced)
        (move s)
  | .ifThen condition yes s =>
      .ifThen (condition.recast move braced)
        (if braced && !yes.isBlock then .block [yes.recast move braced] (move yes.span)
         else yes.recast move braced) (move s)
  | .ifElse condition yes no s =>
      .ifElse (condition.recast move braced)
        (if braced && !yes.isBlock then .block [yes.recast move braced] (move yes.span)
         else yes.recast move braced)
        (if braced && !no.isBlock then .block [no.recast move braced] (move no.span)
         else no.recast move braced) (move s)
  | .conditional condition yes no s =>
      .conditional (condition.recast move braced) (yes.recast move braced) (no.recast move braced)
        (move s)
  | .whileLoop condition body s =>
      .whileLoop (condition.recast move braced)
        (if braced && !body.isBlock then .block [body.recast move braced] (move body.span)
         else body.recast move braced) (move s)
  | .doLoop body condition s =>
      .doLoop
        (if braced && !body.isBlock then .block [body.recast move braced] (move body.span)
         else body.recast move braced)
        (condition.recast move braced) (move s)
  | .forLoop init condition step body s =>
      .forLoop (init.recast move braced) (condition.recast move braced) (step.recast move braced)
        (if braced && !body.isBlock then .block [body.recast move braced] (move body.span)
         else body.recast move braced) (move s)
  | .useBoard name s => .useBoard (name.recast move) (move s)
  | .delete operand s => .delete (operand.recast move braced) (move s)
  | .returnNothing s => .returnNothing (move s)
  | .returnValue value s => .returnValue (value.recast move braced) (move s)
  | .expression value s => .expression (value.recast move braced) (move s)
  | .function params body literal s =>
      .function (params.map (Name.recast move)) (body.recast move braced) (move literal) (move s)
  | .map params body literal s =>
      .map (params.map (Name.recast move)) (body.recast move braced) (move literal) (move s)
  | .call callee args s => .call (callee.recast move braced) (recastAll move braced args) (move s)
  | .callWith callee args attributes s =>
      .callWith (callee.recast move braced) (recastAll move braced args)
        (recastProperties move braced attributes) (move s)
  | .array items s => .array (recastAll move braced items) (move s)
  | .object properties s => .object (recastProperties move braced properties) (move s)
  | .index base index s => .index (base.recast move braced) (index.recast move braced) (move s)
  | .binary operator left right s =>
      .binary operator (left.recast move braced) (right.recast move braced) (move s)
  | .unary operator operand s => .unary operator (operand.recast move braced) (move s)
  | .identifier name s => .identifier name (move s)
  | .numeral text kind s => .numeral text kind (move s)
  | .string value s => .string value (move s)
  | .boolean value s => .boolean value (move s)
  | .coordinate axis operand s => .coordinate axis (operand.recast move braced) (move s)
  | .property owner name s => .property (owner.recast move braced) (name.recast move) (move s)

def recastAll (move : Span → Span) (braced : Bool) : List Node → List Node
  | [] => []
  | node :: rest => node.recast move braced :: recastAll move braced rest

def recastProperties (move : Span → Span) (braced : Bool) : List Property → List Property
  | [] => []
  | .mk name value :: rest =>
      .mk (name.recast move) (value.recast move braced) :: recastProperties move braced rest

end

/-- A body of a condition or a loop, recast. -/
def Node.recastBody (move : Span → Span) (braced : Bool) (body : Node) : Node :=
  if braced && !body.isBlock then .block [body.recast move braced] (move body.span)
  else body.recast move braced

def Property.recast (move : Span → Span) (braced : Bool) (p : Property) : Property :=
  .mk (p.name.recast move) (p.value.recast move braced)

def FunctionLiteral.recast (move : Span → Span) (braced : Bool) (literal : FunctionLiteral) :
    FunctionLiteral :=
  ⟨literal.isMap, literal.params.map (Name.recast move), literal.body.recast move braced,
    move literal.span⟩

section

variable (move : Span → Span) (braced : Bool)

theorem recastAll_eq_map (nodes : List Node) :
    recastAll move braced nodes = nodes.map (Node.recast move braced) := by
  induction nodes with
  | nil => rfl
  | cons node nodes ih => rw [recastAll, ih, List.map_cons]

theorem recastProperties_eq_map (properties : List Property) :
    recastProperties move braced properties = properties.map (Property.recast move braced) := by
  induction properties with
  | nil => rfl
  | cons p properties ih =>
      obtain ⟨name, value⟩ := p
      rw [recastProperties, ih]
      rfl

@[simp] theorem text_nameRecast (name : Name) : (name.recast move).text = name.text := rfl

@[simp] theorem texts_recast (params : List Name) :
    (params.map (Name.recast move)).map Name.text = params.map Name.text := by
  rw [List.map_map]
  rfl

-- ============================================================= forms of nodes

@[simp] theorem span_recast (node : Node) : (node.recast move braced).span = move node.span := by
  cases node <;> rfl

@[simp] theorem isBlock_recast (node : Node) :
    (node.recast move braced).isBlock = node.isBlock := by
  cases node <;> rfl

@[simp] theorem isStatement_recast (node : Node) :
    (node.recast move braced).isStatement = node.isStatement := by
  cases node <;> rfl

@[simp] theorem name?_recast (node : Node) : (node.recast move braced).name? = node.name? := by
  cases node <;> rfl

@[simp] theorem mark_recast (node : Node) : mark (node.recast move braced) = mark node := by
  cases node <;> rfl

-- ===================================================================== text

/-- A body in braces. -/
theorem surface_body (level : Nat) {node other : Node} (hmark : mark other = mark node)
    (hblock : other.isBlock = node.isBlock)
    (h : ∀ level, other.surface level = node.surface level) (s : Span) :
    (let body := if braced && !node.isBlock then .block [other] s else other
     if body.isBlock then body.surface level
     else braces level (line (level + 1) body (body.surface (level + 1))))
      = if node.isBlock then node.surface level
        else braces level (line (level + 1) node (node.surface (level + 1))) := by
  cases hb : node.isBlock with
  | true => simp [hblock, hb, h]
  | false =>
      cases braced with
      | false => simp [hblock, hb, h, line, hmark]
      | true => simp [Node.isBlock, Node.surface, surfaceLines, h, line, hmark]

mutual

/-- The text of a program does not tell its places, and has all braces. -/
theorem surface_recast : (node : Node) → (level : Nat) →
    (node.recast move braced).surface level = node.surface level
  | .useBoard .., _ | .returnNothing .., _ | .identifier .., _ | .numeral .., _ | .string .., _
  | .boolean .., _ => rfl
  | .assign _ x _, _ | .delete x _, _ | .returnValue x _, _ | .expression x _, _ | .unary _ x _, _
  | .coordinate _ x _, _ | .property x _ _, _ => by
      simp only [Node.recast, Node.surface, text_nameRecast, surface_recast x]
  | .assignProperty x _ y _, _ | .index x y _, _ | .binary _ x y _, _ => by
      simp only [Node.recast, Node.surface, text_nameRecast, surface_recast x, surface_recast y]
  | .assignIndex x y z _, _ | .conditional x y z _, _ => by
      simp only [Node.recast, Node.surface, surface_recast x, surface_recast y, surface_recast z]
  | .function _ body _ _, _ => by
      simp only [Node.recast, Node.surface, texts_recast, surface_recast body, isBlock_recast,
        line, mark_recast]
  | .map _ body _ _, _ => by
      simp only [Node.recast, Node.surface, texts_recast, surface_recast body]
  | .block nodes _, _ => by
      rw [Node.recast, Node.surface, Node.surface, surfaceLines_recast nodes]
  | .array nodes _, _ => by
      simp only [Node.recast, Node.surface, surfaceList_recast nodes]
  | .object properties _, _ => by
      simp only [Node.recast, Node.surface, surfaceProperties_recast properties]
  | .call callee args _, _ => by
      simp only [Node.recast, Node.surface, surface_recast callee, surfaceList_recast args]
  | .callWith callee args attributes _, _ => by
      simp only [Node.recast, Node.surface, surface_recast callee, surfaceList_recast args,
        surfaceProperties_recast attributes]
  | .ifThen condition body _, level | .whileLoop condition body _, level
  | .doLoop body condition _, level => by
      have hbody := surface_body braced level (mark_recast move braced body)
        (isBlock_recast move braced body) (surface_recast body) (move body.span)
      simp only [Node.recast, Node.surface, surface_recast condition] at hbody ⊢
      rw [hbody]
  | .ifElse condition yes no _, level => by
      have hyes := surface_body braced level (mark_recast move braced yes)
        (isBlock_recast move braced yes) (surface_recast yes) (move yes.span)
      have hno := surface_body braced level (mark_recast move braced no)
        (isBlock_recast move braced no) (surface_recast no) (move no.span)
      simp only [Node.recast, Node.surface, surface_recast condition] at hyes hno ⊢
      rw [hyes, hno]
  | .forLoop init condition step body _, level => by
      have hbody := surface_body braced level (mark_recast move braced body)
        (isBlock_recast move braced body) (surface_recast body) (move body.span)
      simp only [Node.recast, Node.surface, surface_recast init, surface_recast condition,
        surface_recast step] at hbody ⊢
      rw [hbody]

theorem surfaceLines_recast : (nodes : List Node) → (level : Nat) →
    surfaceLines level (recastAll move braced nodes) = surfaceLines level nodes
  | [], _ => rfl
  | node :: rest, level => by
      simp only [recastAll, surfaceLines, line, mark_recast, surface_recast node,
        surfaceLines_recast rest]

theorem surfaceList_recast : (nodes : List Node) → (level : Nat) →
    surfaceList level (recastAll move braced nodes) = surfaceList level nodes
  | [], _ => rfl
  | [node], level => by
      simp only [recastAll, surfaceList, surface_recast node]
  | node :: next :: rest, level => by
      have hrest := surfaceList_recast (next :: rest) level
      simp only [recastAll] at hrest
      simp only [recastAll, surfaceList, surface_recast node, hrest]

theorem surfaceProperties_recast : (properties : List Property) → (level : Nat) →
    surfaceProperties level (recastProperties move braced properties)
      = surfaceProperties level properties
  | [], _ => rfl
  | [.mk name value], level => by
      simp only [recastProperties, surfaceProperties, text_nameRecast, surface_recast value]
  | .mk name value :: .mk next other :: rest, level => by
      have hrest := surfaceProperties_recast (.mk next other :: rest) level
      simp only [recastProperties] at hrest
      simp only [recastProperties, surfaceProperties, text_nameRecast, surface_recast value, hrest]

end

/-- The text of a literal is that of the recast one. -/
theorem literal_recast (literal : FunctionLiteral) :
    Surface.literal (literal.recast move braced).params (literal.recast move braced).body
        (literal.recast move braced).isMap
      = Surface.literal literal.params literal.body literal.isMap := by
  unfold Surface.literal FunctionLiteral.recast
  cases literal.isMap with
  | true => simp only [if_true, texts_recast, surface_recast]
  | false =>
      simp only [Node.surface, texts_recast, surface_recast, isBlock_recast, line, mark_recast]

@[simp] theorem node_recast (node : Node) :
    Surface.node (node.recast move braced) = Surface.node node := by
  simp only [Surface.node, isStatement_recast, surface_recast, mark_recast]

-- ================================================================= formulas

mutual

/-- Recasting keeps what stops a body from being a formula. -/
theorem notFormula_recast : (node : Node) →
    (node.recast move braced).notFormula = node.notFormula.map (Node.recast move braced)
  | .numeral .. | .identifier .. => rfl
  | .coordinate axis operand s => by
      simp only [Node.recast, Node.notFormula, notFormula_recast operand]
  | .property owner name s => by
      simp only [Node.recast, Node.notFormula, notFormula_recast owner]
  | .binary operator left right s => by
      simp only [Node.recast, Node.notFormula, notFormula_recast left, notFormula_recast right]
      split
      · cases left.notFormula <;> rfl
      · rfl
  | .unary .negate operand s => by
      simp only [Node.recast, Node.notFormula, notFormula_recast operand]
  | .call callee args s => by
      cases callee <;>
        simp only [Node.recast, Node.notFormula, anyNotFormula_recast args, Option.map_some]
  | .block .. | .assign .. | .assignProperty .. | .assignIndex .. | .ifThen .. | .ifElse ..
  | .conditional .. | .whileLoop .. | .doLoop .. | .forLoop .. | .useBoard .. | .delete ..
  | .returnNothing .. | .returnValue .. | .expression .. | .function .. | .map .. | .callWith ..
  | .array .. | .object .. | .index .. | .unary .not .. | .string .. | .boolean .. => rfl

theorem anyNotFormula_recast : (nodes : List Node) →
    anyNotFormula (recastAll move braced nodes)
      = (anyNotFormula nodes).map (Node.recast move braced)
  | [] => rfl
  | node :: rest => by
      simp only [recastAll, anyNotFormula, notFormula_recast node, anyNotFormula_recast rest]
      cases node.notFormula <;> rfl

end

-- ========================================================== names looked up

/-- The names that a node and all below it look up, in order. -/
def Node.lookups (node : Node) : List String := node.preorder.filterMap Node.lookedUp

theorem preorder_eq (node : Node) : node.preorder = node :: node.children.flatMap Node.preorder := by
  rw [Node.preorder, List.flatMap_subtype (g := Node.preorder) (fun _ _ => rfl), List.unattach_attach]

/-- What goes down from a node to its children holds of all that lies in it. -/
theorem Node.of_preorder {P : Node → Prop}
    (hdown : ∀ {node child}, P node → child ∈ node.children → P child) {root node : Node}
    (h : P root) (hmem : node ∈ root.preorder) : P node := by
  rw [preorder_eq] at hmem
  rcases List.mem_cons.1 hmem with rfl | hmem
  · exact h
  · obtain ⟨child, hchild, hmem⟩ := List.mem_flatMap.1 hmem
    exact of_preorder hdown (hdown h hchild) hmem
termination_by sizeOf root
decreasing_by exact Node.child_lt hchild

theorem lookups_eq (node : Node) :
    node.lookups = node.lookedUp.toList ++ node.children.flatMap Node.lookups := by
  have hchildren : (node.children.flatMap Node.preorder).filterMap Node.lookedUp
      = node.children.flatMap Node.lookups := by
    rw [List.filterMap_flatMap]
    rfl
  rw [Node.lookups, preorder_eq, List.filterMap_cons, hchildren]
  cases node.lookedUp <;> rfl

/-- The text, if the node is nothing but one. -/
def Node.text? : Node → Option String
  | .string value _ => some value
  | _ => none

@[simp] theorem text?_recast (node : Node) : (node.recast move braced).text? = node.text? := by
  cases node <;> rfl

/-- The name that a call of `$` is given first. -/
def Node.selected (callee : Node) (args : List Node) : Option String :=
  if callee.name? = some "$" then args.head?.bind Node.text? else none

theorem lookedUp_call (callee : Node) (args : List Node) (s : Span) :
    (Node.call callee args s).lookedUp = callee.selected args := by
  cases callee with
  | identifier name _ =>
      by_cases hname : name = "$"
      · subst hname
        rcases args with _ | ⟨first, rest⟩
        · rfl
        · cases first <;> rfl
      · simp [Node.lookedUp, Node.selected, Node.name?, hname]
  | _ => rfl

theorem lookedUp_callWith (callee : Node) (args : List Node) (attributes : List Property)
    (s : Span) : (Node.callWith callee args attributes s).lookedUp = callee.selected args := by
  cases callee with
  | identifier name _ =>
      by_cases hname : name = "$"
      · subst hname
        rcases args with _ | ⟨first, rest⟩
        · rfl
        · cases first <;> rfl
      · simp [Node.lookedUp, Node.selected, Node.name?, hname]
  | _ => rfl

@[simp] theorem selected_recast (callee : Node) (args : List Node) :
    (callee.recast move braced).selected (recastAll move braced args) = callee.selected args := by
  unfold Node.selected
  rw [name?_recast, recastAll_eq_map]
  cases args <;> simp

/-- Recasting keeps the name that a node itself looks up. -/
theorem lookedUp_recast (node : Node) : (node.recast move braced).lookedUp = node.lookedUp := by
  cases node with
  | call callee args s =>
      rw [Node.recast, lookedUp_call, lookedUp_call, selected_recast]
  | callWith callee args attributes s =>
      rw [Node.recast, lookedUp_callWith, lookedUp_callWith, selected_recast]
  | _ => rfl

/-- A node directly below a recast one is recast too, and may stand in braces. -/
inductive Node.Recasts : Node → Node → Prop
  | bare (node : Node) : Recasts node (node.recast move braced)
  | inBraces (node : Node) (s : Span) : Recasts node (.block [node.recast move braced] s)

theorem recasts_body (body : Node) :
    body.Recasts move braced (body.recastBody move braced) := by
  unfold Node.recastBody
  split
  · exact .inBraces body _
  · exact .bare body

theorem recasts_all (nodes : List Node) :
    List.Forall₂ (Node.Recasts move braced) nodes (recastAll move braced nodes) := by
  rw [recastAll_eq_map, List.forall₂_map_right_iff, List.forall₂_same]
  exact fun node _ => .bare node

theorem recasts_properties (properties : List Property) :
    List.Forall₂ (Node.Recasts move braced) (properties.map Property.value)
      ((recastProperties move braced properties).map Property.value) := by
  rw [recastProperties_eq_map, List.forall₂_map_left_iff, List.map_map, List.forall₂_map_right_iff,
    List.forall₂_same]
  exact fun p _ => .bare p.value

/-- What stands directly below a recast node. -/
theorem recasts_children (node : Node) :
    List.Forall₂ (Node.Recasts move braced) node.children (node.recast move braced).children := by
  cases node with
  | block nodes _ | array nodes _ => exact recasts_all move braced nodes
  | object properties _ => exact recasts_properties move braced properties
  | call callee args _ => exact .cons (.bare callee) (recasts_all move braced args)
  | callWith callee args attributes _ =>
      exact .cons (.bare callee)
        (List.rel_append (recasts_all move braced args) (recasts_properties move braced attributes))
  | ifThen condition yes _ => exact .cons (.bare condition) (.cons (recasts_body move braced yes) .nil)
  | ifElse condition yes no _ =>
      exact .cons (.bare condition)
        (.cons (recasts_body move braced yes) (.cons (recasts_body move braced no) .nil))
  | whileLoop condition body _ =>
      exact .cons (.bare condition) (.cons (recasts_body move braced body) .nil)
  | doLoop body condition _ =>
      exact .cons (recasts_body move braced body) (.cons (.bare condition) .nil)
  | forLoop init condition step body _ =>
      exact .cons (.bare init) (.cons (.bare condition)
        (.cons (.bare step) (.cons (recasts_body move braced body) .nil)))
  | useBoard | returnNothing | identifier | numeral | string | boolean => exact .nil
  | assign _ x _ | assignProperty x _ y _ | assignIndex x y z _ | conditional x y z _ | delete x _
  | returnValue x _ | expression x _ | function _ x _ _ | map _ x _ _ | index x y _
  | binary _ x y _ | unary _ x _ | coordinate _ x _ | property x _ _ =>
      repeat first
        | exact .nil
        | refine .cons (.bare _) ?_

/-- A recast tree looks up the same names in the same order. -/
theorem lookups_recast (node : Node) : (node.recast move braced).lookups = node.lookups := by
  have hbelow : ∀ child ∈ node.children, ∀ other, child.Recasts move braced other →
      other.lookups = child.lookups := by
    rintro child hchild _ (_ | ⟨-, s⟩)
    · exact lookups_recast child
    · rw [lookups_eq, Node.children, List.flatMap_singleton, lookups_recast child]
      rfl
  have hchildren := recasts_children move braced node
  rw [lookups_eq, lookups_eq node, lookedUp_recast]
  congr 1
  generalize node.children = children, (node.recast move braced).children = others
    at hbelow hchildren
  induction hchildren with
  | nil => rfl
  | cons hfirst _ ih =>
      rw [List.forall_mem_cons] at hbelow
      rw [List.flatMap_cons, List.flatMap_cons, hbelow.1 _ hfirst, ih hbelow.2]
termination_by sizeOf node
decreasing_by all_goals exact Node.child_lt hchild

@[simp] theorem namesLookedUp_recast (node : Node) :
    (node.recast move braced).namesLookedUp = node.namesLookedUp := by
  have h := lookups_recast move braced node
  unfold Node.lookups at h
  rw [Node.namesLookedUp, h, Node.namesLookedUp]

end

-- =============================================================== composition

section

variable {move : Span → Span}

theorem nameRecast_self (hmove : ∀ s, move s = s) (name : Name) : name.recast move = name := by
  rw [Name.recast, hmove]

theorem namesRecast_self (hmove : ∀ s, move s = s) (names : List Name) :
    names.map (Name.recast move) = names :=
  (List.map_congr_left fun name _ => nameRecast_self hmove name).trans (List.map_id' names)

mutual

/-- Nothing is changed where no span moves and no brace is added. -/
theorem recast_self (hmove : ∀ s, move s = s) : (node : Node) → node.recast move false = node
  | .useBoard .. | .returnNothing .. | .identifier .. | .numeral .. | .string .. | .boolean .. => by
      simp only [Node.recast, hmove, nameRecast_self hmove]
  | .assign _ x _ | .delete x _ | .returnValue x _ | .expression x _ | .unary _ x _
  | .coordinate _ x _ | .property x _ _ => by
      simp only [Node.recast, hmove, nameRecast_self hmove, recast_self hmove x]
  | .function _ body _ _ | .map _ body _ _ => by
      simp only [Node.recast, hmove, namesRecast_self hmove, recast_self hmove body]
  | .assignProperty x _ y _ | .index x y _ | .binary _ x y _ => by
      simp only [Node.recast, hmove, nameRecast_self hmove, recast_self hmove x,
        recast_self hmove y]
  | .assignIndex x y z _ | .conditional x y z _ => by
      simp only [Node.recast, hmove, recast_self hmove x, recast_self hmove y,
        recast_self hmove z]
  | .block nodes _ | .array nodes _ => by
      simp only [Node.recast, hmove, recastAll_self hmove nodes]
  | .object properties _ => by
      simp only [Node.recast, hmove, recastProperties_self hmove properties]
  | .call callee args _ => by
      simp only [Node.recast, hmove, recast_self hmove callee, recastAll_self hmove args]
  | .callWith callee args attributes _ => by
      simp only [Node.recast, hmove, recast_self hmove callee, recastAll_self hmove args,
        recastProperties_self hmove attributes]
  -- no body gets braces
  | .ifThen x y _ | .whileLoop x y _ | .doLoop y x _ => by
      simp only [Node.recast, Bool.false_and, Bool.false_eq_true, if_false, hmove,
        recast_self hmove x, recast_self hmove y]
  | .ifElse x y z _ => by
      simp only [Node.recast, Bool.false_and, Bool.false_eq_true, if_false, hmove,
        recast_self hmove x, recast_self hmove y, recast_self hmove z]
  | .forLoop init condition step body _ => by
      simp only [Node.recast, Bool.false_and, Bool.false_eq_true, if_false, hmove,
        recast_self hmove init, recast_self hmove condition, recast_self hmove step,
        recast_self hmove body]

theorem recastAll_self (hmove : ∀ s, move s = s) :
    (nodes : List Node) → recastAll move false nodes = nodes
  | [] => rfl
  | node :: rest => by rw [recastAll, recast_self hmove node, recastAll_self hmove rest]

theorem recastProperties_self (hmove : ∀ s, move s = s) :
    (properties : List Property) → recastProperties move false properties = properties
  | [] => rfl
  | .mk name value :: rest => by
      rw [recastProperties, nameRecast_self hmove, recast_self hmove value,
        recastProperties_self hmove rest]

end

theorem literalRecast_self (hmove : ∀ s, move s = s) (literal : FunctionLiteral) :
    literal.recast move false = literal := by
  rw [FunctionLiteral.recast, namesRecast_self hmove, recast_self hmove, hmove]

end

section

variable (move next : Span → Span) (braced more : Bool)

/-- A body recast twice. -/
theorem recast_body {node other final : Node} (hblock : other.isBlock = node.isBlock)
    (hspan : other.span = move node.span) (h : other.recast next more = final) :
    (let body := if braced && !node.isBlock then .block [other] (move node.span) else other
     if more && !body.isBlock then .block [body.recast next more] (next body.span)
     else body.recast next more)
      = if (more || braced) && !node.isBlock then .block [final] (next (move node.span))
        else final := by
  cases hb : node.isBlock <;> cases braced <;> cases more <;>
    simp_all [Node.isBlock, Node.recast, recastAll]

mutual

/-- Recasting twice moves spans twice, and adds braces if either does. -/
theorem recast_recast : (node : Node) → (node.recast move braced).recast next more
    = node.recast (next ∘ move) (more || braced)
  | .useBoard .. | .returnNothing .. | .identifier .. | .numeral .. | .string .. | .boolean .. => rfl
  | .assign _ x _ | .delete x _ | .returnValue x _ | .expression x _ | .unary _ x _
  | .coordinate _ x _ | .property x _ _ => by
      simp only [Node.recast, recast_recast x]
      rfl
  | .function _ body _ _ | .map _ body _ _ => by
      simp only [Node.recast, List.map_map, recast_recast body]
      rfl
  | .assignProperty x _ y _ | .index x y _ | .binary _ x y _ => by
      simp only [Node.recast, recast_recast x, recast_recast y]
      rfl
  | .assignIndex x y z _ | .conditional x y z _ => by
      simp only [Node.recast, recast_recast x, recast_recast y, recast_recast z]
      rfl
  | .block nodes _ | .array nodes _ => by
      simp only [Node.recast, recastAll_recast nodes]
      rfl
  | .object properties _ => by
      simp only [Node.recast, recastProperties_recast properties]
      rfl
  | .call callee args _ => by
      simp only [Node.recast, recast_recast callee, recastAll_recast args]
      rfl
  | .callWith callee args attributes _ => by
      simp only [Node.recast, recast_recast callee, recastAll_recast args,
        recastProperties_recast attributes]
      rfl
  | .ifThen condition body _ | .whileLoop condition body _ | .doLoop body condition _ => by
      have hbody := recast_body move next braced more (isBlock_recast move braced body)
        (span_recast move braced body) (recast_recast body)
      simp only [Node.recast, Function.comp_apply, recast_recast condition] at hbody ⊢
      rw [hbody]
  | .ifElse condition yes no _ => by
      have hyes := recast_body move next braced more (isBlock_recast move braced yes)
        (span_recast move braced yes) (recast_recast yes)
      have hno := recast_body move next braced more (isBlock_recast move braced no)
        (span_recast move braced no) (recast_recast no)
      simp only [Node.recast, Function.comp_apply, recast_recast condition] at hyes hno ⊢
      rw [hyes, hno]
  | .forLoop init condition step body _ => by
      have hbody := recast_body move next braced more (isBlock_recast move braced body)
        (span_recast move braced body) (recast_recast body)
      simp only [Node.recast, Function.comp_apply, recast_recast init, recast_recast condition,
        recast_recast step] at hbody ⊢
      rw [hbody]

theorem recastAll_recast : (nodes : List Node) →
    recastAll next more (recastAll move braced nodes)
      = recastAll (next ∘ move) (more || braced) nodes
  | [] => rfl
  | node :: rest => by
      simp only [recastAll, recast_recast node, recastAll_recast rest]

theorem recastProperties_recast : (properties : List Property) →
    recastProperties next more (recastProperties move braced properties)
      = recastProperties (next ∘ move) (more || braced) properties
  | [] => rfl
  | .mk name value :: rest => by
      simp only [recastProperties, recast_recast value, recastProperties_recast rest]
      rfl

end

end

end BoardScript
