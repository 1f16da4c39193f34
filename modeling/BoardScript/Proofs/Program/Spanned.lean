/-
Calls take up some of the text (`wide_of_parse`). A call is read together
with its parentheses, and every token takes up some of the text except the
end of input and a semicolon that was supplied. So where a rule has a token
of another kind in its body, its phrase is not empty; and all rules that
build a call, or put one in another span, have such a token.
-/
import BoardScript.Proofs.Program.Lexed
import BoardScript.Proofs.Program.Recast
import BoardScript.Proofs.Text.Span

namespace BoardScript

open Grammar Lalr

-- ================================================================= tokens

/-- A token that takes up some of the text, as all do but two kinds. -/
def Token.Solid (token : Token) : Prop :=
  token.kind ≠ .endOfInput → token.kind ≠ .semicolon → 0 < token.span.length

theorem solid_scanFrom (cursor : Cursor) (text : List Char) :
    ∀ token ∈ Token.scanFrom cursor text, token.Solid := by
  fun_induction Token.scanFrom cursor text with
  | case1 cursor =>
      intro token hmem hend
      rw [List.mem_singleton.1 hmem] at hend
      exact absurd rfl hend
  | case2 cursor c rest lexeme next tokens hblank ih => exact ih
  | case3 cursor c rest lexeme next tokens hblank ih =>
      refine List.forall_mem_cons.2 ⟨fun _ _ => ?_, ih⟩
      have hfirst : cursor.offset < (cursor.advance lexeme.first).offset :=
        Nat.lt_add_of_pos_right lexeme.first.utf8Size_pos
      exact Nat.sub_pos_of_lt (Nat.lt_of_lt_of_le hfirst (Cursor.offset_le_advanceAll _ _))

-- ================================================================== nodes

namespace Node

/-- Whether a node is a call. -/
def IsCall : Node → Prop
  | call .. | callWith .. => True
  | _ => False

/-- A node whose calls all take up some of the text. -/
inductive Wide : Node → Prop
  | intro {node : Node} (here : node.IsCall → 0 < node.span.length)
      (below : ∀ child ∈ node.children, Wide child) : Wide node

variable {node : Node}

theorem Wide.length_pos : node.Wide → node.IsCall → 0 < node.span.length
  | .intro here _, h => here h

theorem Wide.child {child : Node} : node.Wide → child ∈ node.children → child.Wide
  | .intro _ below, h => below child h

/-- A node that is no call, made of others. -/
theorem Wide.of_children (h : ∀ child ∈ node.children, child.Wide) (hnode : ¬ node.IsCall) :
    node.Wide :=
  .intro (fun hcall => absurd hcall hnode) h

@[simp] theorem wide_block {statements : List Node} {s : Span} :
    (block statements s).Wide ↔ ∀ x ∈ statements, x.Wide :=
  ⟨fun h _ hx => h.child hx, fun h => .of_children h id⟩

@[simp] theorem wide_object {properties : List Property} {s : Span} :
    (object properties s).Wide ↔ ∀ p ∈ properties, p.value.Wide :=
  ⟨fun h _ hp => h.child (List.mem_map_of_mem hp),
    fun h => .of_children (List.forall_mem_map.2 h) id⟩

theorem Wide.withSpan (h : node.Wide) {s : Span} (hs : 0 < s.length) : (node.withSpan s).Wide := by
  obtain ⟨-, below⟩ := h
  cases node <;> exact .intro (fun _ => hs) below

/-- What lies directly below a node within another lies within that too. -/
theorem mem_preorder_child {root child : Node} (hmem : node ∈ root.preorder)
    (hchild : child ∈ node.children) : child ∈ root.preorder := by
  rw [preorder_eq] at hmem ⊢
  refine List.mem_cons_of_mem _ (List.mem_flatMap.2 ?_)
  rcases List.mem_cons.1 hmem with rfl | hmem
  · exact ⟨child, hchild, preorder_eq child ▸ List.mem_cons_self⟩
  · obtain ⟨part, hpart, hmem⟩ := List.mem_flatMap.1 hmem
    exact ⟨part, hpart, mem_preorder_child hmem hchild⟩
termination_by sizeOf root
decreasing_by exact child_lt hpart

theorem Wide.of_preorder {root : Node} (h : root.Wide) (hmem : node ∈ root.preorder) :
    node.Wide :=
  Node.of_preorder Wide.child h hmem

end Node

-- ================================================================== rules

/-- The nodes in what an assignment writes to. -/
def Target.nodes : Target → List Node
  | .variable _ => []
  | .property owner _ => [owner]
  | .index base place => [base, place]

theorem Target.wide_assign {x : Target} (h : ∀ node ∈ x.nodes, node.Wide) {value : Node}
    (hvalue : value.Wide) (span : Span) : (x.assign value span).Wide := by
  cases x <;> exact .of_children (by simp_all [Target.assign, Target.nodes, Node.children]) id

/-- The nodes that a symbol stands for. -/
def Meaning.parts : Meaning → List Node
  | .node x => [x]
  | .nodes xs => xs
  | .properties xs => xs.map Property.value
  | .target x => x.nodes
  | .token _ | .names _ | .name _ => []

/-- All calls in what a symbol stands for take up some of the text. -/
def Meaning.Wide (m : Meaning) : Prop := ∀ node ∈ m.parts, node.Wide

/-- A rule builds wide nodes from such, if its phrase is not empty where its
body has tokens that take up some of the text. -/
def Rule.Wide (rule : Rule) : Prop :=
  ∀ span meanings m,
    List.Forall₂ (fun symbol m => m.Sorted .anything symbol.sort) rule.production.body meanings →
    (∀ part ∈ meanings, part.Wide) →
    (∀ kind, kind ≠ .endOfInput → kind ≠ .semicolon → .terminal kind ∈ rule.production.body →
      0 < span.length) →
    rule.build span meanings = some m → m.Wide

section

variable {ms : List Meaning}

theorem Meaning.wide_parts (h : ∀ part ∈ ms, part.Wide) :
    ∀ node ∈ ms.flatMap Meaning.parts, node.Wide :=
  List.forall_mem_flatMap.2 h

/-- What is made of all nodes that symbols stand for. -/
theorem Meaning.wide_of_parts (h : ∀ part ∈ ms, part.Wide) {m : Meaning}
    (hparts : m.parts = ms.flatMap Meaning.parts) : m.Wide := by
  rw [Wide, hparts]
  exact wide_parts h

/-- A node that is made of all nodes that symbols stand for. -/
theorem Node.wide_of_parts (h : ∀ part ∈ ms, part.Wide) {node : Node}
    (hchildren : node.children = ms.flatMap Meaning.parts)
    (hspan : node.IsCall → 0 < node.span.length) : Meaning.Wide (.node node) := by
  refine List.forall_mem_singleton.2 (.intro hspan ?_)
  rw [hchildren]
  exact Meaning.wide_parts h

end

/-- A node in parentheses, or behind a plus. -/
theorem Meaning.Wide.withSpan {node : Node} (h : Meaning.Wide (.node node)) {span : Span}
    (hspan : 0 < span.length) : Meaning.Wide (.node (node.withSpan span)) :=
  List.forall_mem_singleton.2 ((h node List.mem_cons_self).withSpan hspan)

-- Each list of rules is gone through rule by rule, as the sorts of the body
-- say what the meanings are.

theorem statementRules_wide : ∀ rule ∈ statementRules, rule.Wide := by
  intro rule h
  simp only [statementRules, List.mem_cons, List.not_mem_nil, or_false] at h
  rcases h with rfl | rfl | rfl | rfl | rfl | rfl | rfl | rfl | rfl | rfl | rfl | rfl | rfl |
    rfl | rfl | rfl | rfl | rfl | rfl | rfl | rfl
  all_goals
    intro span meanings m hm hparts hspan hbuild
    repeat
      rcases hm with _ | ⟨h, hm⟩
      cases h
    cases hm
    cases hbuild
  all_goals first
    | exact hparts _ List.mem_cons_self
    | exact Meaning.wide_of_parts hparts rfl
    | exact Node.wide_of_parts hparts rfl False.elim
    | refine Node.wide_of_parts hparts ?_ False.elim
      simp [Meaning.parts, Node.children]
    | exact List.forall_mem_singleton.2 (Target.wide_assign (hparts _ List.mem_cons_self)
        (hparts (.node _) (by simp) _ List.mem_cons_self) span)

theorem operatorRules_wide : ∀ rule ∈ operatorRules, rule.Wide := by
  intro rule h
  simp only [operatorRules, List.mem_cons, List.not_mem_nil, or_false] at h
  rcases h with rfl | rfl | rfl | rfl | rfl | rfl | rfl | rfl | rfl | rfl | rfl | rfl | rfl | rfl |
    rfl | rfl | rfl | rfl | rfl | rfl | rfl | rfl | rfl | rfl | rfl | rfl | rfl | rfl
  all_goals
    intro span meanings m hm hparts hspan hbuild
    repeat
      rcases hm with _ | ⟨h, hm⟩
      cases h
    cases hm
    cases hbuild
  all_goals first
    | exact hparts _ List.mem_cons_self
    | exact Node.wide_of_parts hparts rfl False.elim
    | exact (hparts _ (List.mem_cons_of_mem _ List.mem_cons_self)).withSpan
        (hspan .plus (by decide) (by decide) (by simp))

theorem valueRules_wide : ∀ rule ∈ valueRules, rule.Wide := by
  intro rule h
  simp only [valueRules, List.mem_cons, List.not_mem_nil, or_false] at h
  rcases h with rfl | rfl | rfl | rfl | rfl | rfl | rfl | rfl | rfl | rfl | rfl | rfl | rfl | rfl |
    rfl | rfl | rfl
  all_goals
    intro span meanings m hm hparts hspan hbuild
    repeat
      rcases hm with _ | ⟨h, hm⟩
      cases h
    cases hm
    cases hbuild
  all_goals first
    | exact hparts _ List.mem_cons_self
    | exact Node.wide_of_parts hparts rfl False.elim
    | exact (hparts _ (List.mem_cons_of_mem _ List.mem_cons_self)).withSpan
        (hspan .leftParen (by decide) (by decide) (by simp))
    | refine Node.wide_of_parts hparts ?_ False.elim
      simp [Meaning.parts, Node.children]
      done
    | refine Node.wide_of_parts hparts ?_
        fun _ => hspan .leftParen (by decide) (by decide) (by simp)
      simp [Meaning.parts, Node.children]
      done
    | exact List.forall_mem_singleton.2 (.of_children (List.forall_mem_singleton.2
        (Node.wide_block.2 (hparts (.nodes _) (by simp)))) id)
    | -- the object behind a call is opened
      refine List.forall_mem_singleton.2
        (.intro (fun _ => hspan .leftParen (by decide) (by decide) (by simp)) ?_)
      simp only [List.forall_mem_cons, Meaning.Wide, Meaning.parts] at hparts
      simp_all [Node.children, or_imp]

theorem listRules_wide : ∀ rule ∈ listRules, rule.Wide := by
  intro rule h
  simp only [listRules, List.mem_cons, List.not_mem_nil, or_false] at h
  rcases h with rfl | rfl | rfl | rfl | rfl | rfl | rfl | rfl | rfl | rfl | rfl | rfl | rfl | rfl |
    rfl
  all_goals
    intro span meanings m hm hparts hspan hbuild
    repeat
      rcases hm with _ | ⟨h, hm⟩
      cases h
    cases hm
    cases hbuild
  all_goals first
    | exact hparts _ List.mem_cons_self
    | exact Meaning.wide_of_parts hparts rfl
    | refine Meaning.wide_of_parts hparts ?_
      simp [Meaning.parts, Property.value]
      done
    | refine Node.wide_of_parts hparts ?_ False.elim
      simp [Meaning.parts, Node.children]

theorem rules_wide {index : Nat} {rule : Rule} (h : rules[index]? = some rule) : rule.Wide := by
  rcases mem_rules h with h | h | h | h
  · exact statementRules_wide rule h
  · exact operatorRules_wide rule h
  · exact valueRules_wide rule h
  · exact listRules_wide rule h

-- ================================================================= parsing

theorem exists_of_forall₂ {α β : Type} {R : α → β → Prop} {xs : List α} {ys : List β}
    (h : List.Forall₂ R xs ys) {x : α} (hx : x ∈ xs) : ∃ y ∈ ys, R x y := by
  induction h with
  | nil => cases hx
  | cons hxy _ ih =>
      rcases List.mem_cons.1 hx with rfl | hx
      · exact ⟨_, List.mem_cons_self, hxy⟩
      · obtain ⟨y, hy, h⟩ := ih hx
        exact ⟨y, List.mem_cons_of_mem _ hy, h⟩

/-- An entry with a wide meaning. A token has its own span. -/
def StackEntry.Wide (entry : StackEntry) : Prop :=
  entry.meaning.Wide ∧
    ∀ token, entry.meaning = .token token → token.Solid ∧ entry.span = some token.span

/-- All calls that were read take up some of the text, and what is to be
read are tokens that do. -/
structure Parser.Wide (p : Parser) : Prop where
  read : ∀ entry ∈ p.stack, entry.Wide
  tokens : ∀ token ∈ p.lookahead :: p.rest, token.Solid

section

variable {tables : Tables} {D : Driver tables} {symbols : List Symbol} {p q : Parser}

namespace Parser

theorem wide_shift (h : p.Wide) (state : StateId) : (p.shift state).Wide := by
  obtain ⟨hlook, hrest⟩ := List.forall_mem_cons.1 h.tokens
  have htop : StackEntry.Wide ⟨state, .token p.lookahead, some p.lookahead.span⟩ := by
    refine ⟨List.forall_mem_nil _, ?_⟩
    rintro _ ⟨⟩
    exact ⟨hlook, rfl⟩
  have hread := List.forall_mem_cons.2 ⟨htop, h.read⟩
  unfold Parser.shift Parser.advance
  cases hnext : p.rest with
  | nil =>
      exact ⟨hread, List.forall_mem_singleton.2 hlook⟩
  | cons token rest =>
      simp only [hnext] at hrest ⊢
      exact ⟨hread, hrest⟩

theorem wide_reduce (hlexed : p.Lexed D .anything symbols) (h : p.Wide) {index : Nat} {rule : Rule}
    (haction : tables.action p.state p.lookahead.kind = some (.reduce index))
    (hrule : rules[index]? = some rule) (hq : p.reduce tables rule = some q) : q.Wide := by
  have hparts := sorted_parts hlexed.meant (hlexed.path.finished haction hrule).1
  obtain ⟨m, target, hbuild, -, rfl⟩ := reduce_eq hq
  have hpopped : ∀ entry ∈ (p.stack.take rule.production.body.length).reverse, entry.Wide :=
    fun entry hmem => h.read entry (List.mem_of_mem_take (List.mem_reverse.1 hmem))
  generalize (p.stack.take rule.production.body.length).reverse = popped at *
  have hwide : m.Wide := by
    refine rules_wide hrule _ _ m hparts
      (List.forall_mem_map.2 fun entry hmem => (hpopped entry hmem).1)
      (fun kind hend hkind hbody => ?_) hbuild
    obtain ⟨m, hm, hsorted⟩ := exists_of_forall₂ hparts hbody
    obtain ⟨entry, hentry, rfl⟩ := List.mem_map.1 hm
    generalize hmeaning : entry.meaning = meaning at hsorted
    cases hsorted with
    | token token hsame _ =>
        obtain ⟨hsolid, hspan⟩ := (hpopped entry hentry).2 token hmeaning
        obtain ⟨covered, hcovered, hwithin⟩ :=
          Span.exists_coverAll (List.mem_filterMap.2 ⟨entry, hentry, hspan⟩)
        rw [hcovered]
        exact Nat.lt_of_lt_of_le (hsolid (hsame ▸ hend) (hsame ▸ hkind)) hwithin.length_le
  -- a head is no token
  have hhead : ∀ token, m ≠ .token token := by
    rintro token rfl
    obtain ⟨m', hbuild', hsorted⟩ := rules_sorted .anything hrule _ _ hparts
    obtain rfl := Option.some.inj (hbuild.symm.trans hbuild')
    generalize rule.production.head = head at hsorted
    cases head <;> cases hsorted
  exact ⟨List.forall_mem_cons.2 ⟨⟨hwide, fun token hm => absurd hm (hhead token)⟩,
    fun entry hmem => h.read entry (List.mem_of_mem_drop hmem)⟩, h.tokens⟩

theorem wide_accept (h : p.Wide)
    (haction : tables.action p.state p.lookahead.kind = some .accept) {root : Node}
    {errors : List SyntaxError} (hstep : p.step tables = .done ⟨some root, errors⟩) : root.Wide := by
  obtain ⟨state, span, stack, hstack⟩ := stack_of_accept haction hstep
  exact (h.read _ (hstack ▸ List.mem_cons_self)).1 root List.mem_cons_self

theorem wide_supply (h : p.Wide) : p.supplySemicolon.Wide :=
  ⟨h.read, List.forall_mem_cons.2 ⟨fun _ h => absurd rfl h, h.tokens⟩⟩

/-- A run that ends without an error has read a program whose calls all take
up some of the text. -/
theorem wide_run {fuel : Nat} (hlexed : p.Lexed D .anything symbols) (h : p.Wide)
    (hclean : p.lastError = none) {root : Node} (hrun : p.run tables fuel = some ⟨some root, []⟩) :
    root.Wide := by
  refine run_clean_leadsTo (fun p => (∃ symbols, p.Lexed D .anything symbols) ∧ p.Wide)
    Node.Wide ?_ ?_ ?_ ?_ ⟨⟨symbols, hlexed⟩, h⟩ hclean hrun
  · rintro p state ⟨⟨symbols, hlexed⟩, h⟩ haction
    exact ⟨⟨_, lexed_shift hlexed haction⟩, wide_shift h state⟩
  · rintro p index rule q ⟨⟨symbols, hlexed⟩, h⟩ haction hrule hq
    exact ⟨lexed_reduce hlexed haction hrule hq, wide_reduce hlexed h haction hrule hq⟩
  · rintro p root ⟨-, h⟩ haction hstep
    exact wide_accept h haction hstep
  · rintro p ⟨⟨symbols, hlexed⟩, h⟩ -
    exact ⟨⟨symbols, lexed_supply trivial hlexed⟩, wide_supply h⟩

end Parser

end

/-- In a program that was read without an error all calls take up some of
the text. -/
theorem wide_of_parse {options : ParseOptions} {source : Source} {root : Node}
    (h : parse options source = ⟨some root, []⟩) : root.Wide := by
  have hrun := (run_good options source).1
  rw [h] at hrun
  have hlexed : (Parser.start options source (Token.scan source.text)).Lexed driver .anything [] :=
    ⟨.nil, .nil, fun _ _ => trivial⟩
  refine Parser.wide_run hlexed ⟨List.forall_mem_nil _, ?_⟩ rfl hrun
  have htokens := solid_scanFrom .start (Comment.blank source.text.toList)
  show ∀ token ∈ (Token.scan source.text).headD _ :: (Token.scan source.text).tail, token.Solid
  rw [Token.scan_eq]
  generalize Token.scanFrom .start (Comment.blank source.text.toList) = tokens at htokens
  cases tokens with
  | nil => exact List.forall_mem_singleton.2 fun h => absurd rfl h
  | cons token tokens => exact htokens

end BoardScript
