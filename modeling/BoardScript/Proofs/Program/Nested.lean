/-
Where the nodes of a program stand. The span of a node lies in the text and
holds the names of the node and the spans of the nodes directly below it, one
behind the other (`Node.Placed`). A rule makes its node of all nodes and names
that its symbols stand for, in order (`Rule.Makes`), and the span it is handed
covers what the symbols cover. The symbols on the stack and the tokens to come
stand in a row (`Parser.Row`), also behind a recovery, which only leaves some
of them out.
-/
import BoardScript.Proofs.Program.Grammatical
import BoardScript.Proofs.Program.Spanned
import BoardScript.Proofs.Token.Placed

namespace BoardScript

open Grammar Lalr

-- ================================================================== nodes

namespace Node

/-- The names that a node carries, each with a span of its own. -/
def names : Node → List Name
  | assign name _ _ | assignProperty _ name _ _ | useBoard name _ | property _ name _ => [name]
  | function params _ _ _ | map params _ _ _ => params
  | callWith _ _ attributes _ => attributes.map Property.name
  | object properties _ => properties.map Property.name
  | _ => []

/-- The span of a node lies in a text and holds the names of the node and the
nodes directly below it, one behind the other. -/
structure Placed (text : String) (node : Node) : Prop where
  lies : node.span.Lies text
  children : ∀ child ∈ node.children, child.span.Within node.span
  names : ∀ name ∈ node.names, name.span.Within node.span
  ordered : node.children.Pairwise fun a b => a.span.Precedes b.span

/-- A node that is placed in a text, as all nodes below it are. -/
def Nested (text : String) (node : Node) : Prop := ∀ x ∈ node.preorder, x.Placed text

variable {text : String} {node : Node}

theorem nested_iff : node.Nested text ↔
    node.Placed text ∧ ∀ child ∈ node.children, child.Nested text := by
  rw [Nested, preorder_eq, List.forall_mem_cons, List.forall_mem_flatMap]
  rfl

theorem Nested.placed (h : node.Nested text) : node.Placed text := (nested_iff.1 h).1

theorem span_withSpan (node : Node) (span : Span) : (node.withSpan span).span = span := by
  cases node <;> rfl

/-- A nested node in a wider span. -/
theorem Nested.withSpan (h : node.Nested text) {span : Span} (hlies : span.Lies text)
    (hwithin : node.span.Within span) : (node.withSpan span).Nested text := by
  obtain ⟨⟨-, hchildren, hnames, hordered⟩, hbelow⟩ := nested_iff.1 h
  have hchildren' := fun child hchild => (hchildren child hchild).trans hwithin
  have hnames' := fun name hname => (hnames name hname).trans hwithin
  cases node <;> exact nested_iff.2 ⟨⟨hlies, hchildren', hnames', hordered⟩, hbelow⟩

/-- Nodes that are nested in a text, one behind the other. -/
structure Row (text : String) (nodes : List Node) : Prop where
  nested : ∀ node ∈ nodes, node.Nested text
  ordered : nodes.Pairwise fun a b => a.span.Precedes b.span

theorem Nested.row (h : node.Nested text) : Row text node.children :=
  ⟨(nested_iff.1 h).2, h.placed.ordered⟩

theorem Row.single (h : node.Nested text) : Row text [node] :=
  ⟨List.forall_mem_singleton.2 h, List.pairwise_singleton _ _⟩

/-- A node around a row of nodes. -/
theorem Row.nested_node {nodes : List Node} (h : Row text nodes) (hnodes : node.children = nodes)
    (hlies : node.span.Lies text) (hchildren : ∀ child ∈ nodes, child.span.Within node.span)
    (hnames : ∀ name ∈ node.names, name.span.Within node.span) : node.Nested text := by
  subst hnodes
  exact nested_iff.2 ⟨⟨hlies, hchildren, hnames, h.ordered⟩, h.nested⟩

/-- In a row, the last node can be replaced by those below it. -/
theorem Row.open_last {front : List Node} (h : Row text (front ++ [node])) :
    Row text (front ++ node.children) := by
  obtain ⟨hnested, hordered⟩ := h
  obtain ⟨hfront, hlast⟩ := List.forall_mem_append.1 hnested
  obtain ⟨hbefore, -, hcross⟩ := List.pairwise_append.1 hordered
  have hnode : node.Nested text := hlast node List.mem_cons_self
  refine ⟨List.forall_mem_append.2 ⟨hfront, hnode.row.nested⟩,
    List.pairwise_append.2 ⟨hbefore, hnode.placed.ordered, fun a ha b hb => ?_⟩⟩
  exact (hcross a ha node List.mem_cons_self).mono (.refl _) (hnode.placed.children b hb)

end Node

-- ================================================================== rules

/-- The spans of the nodes and the name in what an assignment writes to. -/
def Target.spans : Target → List Span
  | .variable name => [name.span]
  | .property owner name => [owner.span, name.span]
  | .index base place => [base.span, place.span]

/-- The spans of the nodes, names and tokens that a symbol stands for. -/
def Meaning.spans : Meaning → List Span
  | .token t => [t.span]
  | .node x => [x.span]
  | .nodes xs => xs.map Node.span
  | .names xs => xs.map Name.span
  | .properties xs => xs.flatMap fun x => [x.name.span, x.value.span]
  | .name x => [x.span]
  | .target x => x.spans

theorem Meaning.span_mem {m : Meaning} {x : Node} (h : x ∈ m.parts) : x.span ∈ m.spans := by
  cases m with
  | node y => exact List.mem_singleton.2 (congrArg Node.span (List.mem_singleton.1 h))
  | nodes xs => exact List.mem_map_of_mem h
  | properties xs =>
      obtain ⟨p, hp, rfl⟩ := List.mem_map.1 h
      exact List.mem_flatMap.2 ⟨p, hp, List.mem_cons_of_mem p.name.span List.mem_cons_self⟩
  | target target =>
      rcases target with n | ⟨owner, n⟩ | ⟨base, place⟩
      · cases h
      · obtain rfl := List.mem_singleton.1 h
        exact List.mem_cons_self
      · simp only [parts, Target.nodes, List.mem_cons, List.not_mem_nil, or_false] at h
        rcases h with rfl | rfl
        · exact List.mem_cons_self
        · exact List.mem_cons_of_mem base.span List.mem_cons_self
  | token _ | names _ | name _ => cases h

/-- What a rule makes of what its symbols stand for, handed the span of its
phrase. Only a program is made of nothing at all. -/
inductive Rule.Makes (head : NonTerminal) (span : Span) (ms : List Meaning) : Meaning → Prop
  /-- the nodes, and names, are handed on -/
  | handed {m : Meaning} (hparts : m.parts = ms.flatMap Meaning.parts)
      (hspans : ∀ s ∈ m.spans, s ∈ ms.flatMap Meaning.spans) : Makes head span ms m
  /-- a node with all the nodes below it -/
  | node {node : Node} (hspan : node.span = span)
      (hchildren : node.children = ms.flatMap Meaning.parts)
      (hnames : ∀ name ∈ node.names, name.span ∈ ms.flatMap Meaning.spans)
      (hfilled : head = .program ∨ ms.flatMap Meaning.spans ≠ []) : Makes head span ms (.node node)
  /-- a node in parentheses, or behind a plus -/
  | widened {node : Node} (hparts : ms.flatMap Meaning.parts = [node]) :
      Makes head span ms (.node (node.withSpan span))
  /-- a function, and a body of the same span with all the nodes below it -/
  | function {params : List Name} {statements : List Node}
      (hparts : ms.flatMap Meaning.parts = statements)
      (hnames : ∀ name ∈ params, name.span ∈ ms.flatMap Meaning.spans)
      (hfilled : ms.flatMap Meaning.spans ≠ []) :
      Makes head span ms (.node (.function params (.block statements span) span span))
  /-- a call with what an object behind it holds -/
  | callWith {callee : Node} {args : List Node} {attributes : List Property} {inner : Span}
      (hparts : ms.flatMap Meaning.parts = callee :: args ++ [.object attributes inner]) :
      Makes head span ms (.node (.callWith callee args attributes span))

/-- What a rule builds is made of what its symbols stand for. -/
def Rule.Made (rule : Rule) : Prop :=
  ∀ span ms m,
    List.Forall₂ (fun symbol m => m.Sorted .anything symbol.sort) rule.production.body ms →
    rule.build span ms = some m → Rule.Makes rule.production.head span ms m

theorem Target.makes_assign {head : NonTerminal} (target : Target) (value : Node) (t : Token)
    (span : Span) : Rule.Makes head span [.target target, .token t, .node value]
      (.node (target.assign value span)) := by
  rcases target with n | ⟨owner, n⟩ | ⟨base, place⟩
  all_goals
    refine .node rfl rfl ?_ (.inr ?_)
    · simp [assign, Node.names, Meaning.spans, spans]
    · simp [Meaning.spans]

-- Each list of rules is gone through rule by rule, as the sorts of the body
-- say what the meanings are.

theorem statementRules_made : ∀ rule ∈ statementRules, rule.Made := by
  intro rule h
  simp only [statementRules, List.mem_cons, List.not_mem_nil, or_false] at h
  rcases h with rfl | rfl | rfl | rfl | rfl | rfl | rfl | rfl | rfl | rfl | rfl | rfl | rfl |
    rfl | rfl | rfl | rfl | rfl | rfl | rfl | rfl
  all_goals
    intro span ms m hm hbuild
    repeat
      rcases hm with _ | ⟨h, hm⟩
      cases h
    cases hm
    cases hbuild
  all_goals first
    | exact Target.makes_assign ..
    | refine .handed ?_ ?_
      · simp [Meaning.parts, Target.nodes]
        done
      · simp [Meaning.spans, Target.spans, Token.name]
    | refine .node rfl ?_ ?_ ?_
      · simp [Meaning.parts, Node.children]
      · simp [Node.names, Meaning.spans, Token.name]
      · simp [Meaning.spans]

theorem operatorRules_made : ∀ rule ∈ operatorRules, rule.Made := by
  intro rule h
  simp only [operatorRules, List.mem_cons, List.not_mem_nil, or_false] at h
  rcases h with rfl | rfl | rfl | rfl | rfl | rfl | rfl | rfl | rfl | rfl | rfl | rfl | rfl | rfl |
    rfl | rfl | rfl | rfl | rfl | rfl | rfl | rfl | rfl | rfl | rfl | rfl | rfl | rfl
  all_goals
    intro span ms m hm hbuild
    repeat
      rcases hm with _ | ⟨h, hm⟩
      cases h
    cases hm
    cases hbuild
  all_goals first
    | exact .handed rfl fun s hs => hs
    | exact .widened rfl
    | refine .node rfl rfl ?_ (.inr (List.cons_ne_nil _ _))
      simp only [Node.names, Meaning.spans, List.flatMap_cons, List.mem_append]
      grind

theorem valueRules_made : ∀ rule ∈ valueRules, rule.Made := by
  intro rule h
  simp only [valueRules, List.mem_cons, List.not_mem_nil, or_false] at h
  rcases h with rfl | rfl | rfl | rfl | rfl | rfl | rfl | rfl | rfl | rfl | rfl | rfl | rfl | rfl |
    rfl | rfl | rfl
  all_goals
    intro span ms m hm hbuild
    repeat
      rcases hm with _ | ⟨h, hm⟩
      cases h
    cases hm
    cases hbuild
  all_goals first
    | exact .handed rfl fun s hs => hs
    | exact .widened rfl
    | refine .node rfl ?_ ?_ (.inr (List.cons_ne_nil _ _))
      · simp [Meaning.parts, Node.children]
      · simp [Node.names, Meaning.spans]
    | exact .callWith rfl
    | refine .function ?_ ?_ ?_
      · simp [Meaning.parts]
      · simp only [Meaning.spans, List.flatMap_cons, List.mem_append]
        grind
      · exact List.cons_ne_nil _ _

theorem listRules_made : ∀ rule ∈ listRules, rule.Made := by
  intro rule h
  simp only [listRules, List.mem_cons, List.not_mem_nil, or_false] at h
  rcases h with rfl | rfl | rfl | rfl | rfl | rfl | rfl | rfl | rfl | rfl | rfl | rfl | rfl | rfl |
    rfl
  all_goals
    intro span ms m hm hbuild
    repeat
      rcases hm with _ | ⟨h, hm⟩
      cases h
    cases hm
    cases hbuild
  all_goals first
    | refine .node rfl ?_ ?_ (.inr (List.cons_ne_nil _ _))
      · simp [Meaning.parts, Node.children]
      · simp only [Node.names, Meaning.spans, List.flatMap_cons, List.mem_append]
        grind
    | refine .handed ?_ ?_
      · simp [Meaning.parts, Property.value]
      · simp only [Meaning.spans, List.flatMap_cons, List.flatMap_append, List.mem_append]
        grind [Token.name, Property.name, Property.value]

theorem rules_made {index : Nat} {rule : Rule} (h : rules[index]? = some rule) : rule.Made := by
  rcases mem_rules h with h | h | h | h
  · exact statementRules_made rule h
  · exact operatorRules_made rule h
  · exact valueRules_made rule h
  · exact listRules_made rule h

namespace Rule.Makes

variable {head : NonTerminal} {span : Span} {ms : List Meaning} {m : Meaning}

theorem span_mem_parts {x : Node} (h : x ∈ ms.flatMap Meaning.parts) :
    x.span ∈ ms.flatMap Meaning.spans := by
  obtain ⟨m, hm, hx⟩ := List.mem_flatMap.1 h
  exact List.mem_flatMap.2 ⟨m, hm, Meaning.span_mem hx⟩

/-- What is made of a row of nodes is one, and stays in the span. -/
theorem row {text : String} (h : Makes head span ms m) (hlies : span.Lies text)
    (hrow : Node.Row text (ms.flatMap Meaning.parts))
    (hwithin : ∀ s ∈ ms.flatMap Meaning.spans, s.Within span) :
    Node.Row text m.parts ∧ ∀ s ∈ m.spans, s.Within span := by
  have hparts : ∀ x ∈ ms.flatMap Meaning.parts, x.span.Within span :=
    fun x hx => hwithin _ (span_mem_parts hx)
  cases h with
  | handed hequal hspans => exact ⟨hequal ▸ hrow, fun s hs => hwithin s (hspans s hs)⟩
  | @node node hspan hchildren hnames _ =>
      subst hspan
      exact ⟨.single (hrow.nested_node hchildren hlies hparts fun name h => hwithin _ (hnames name h)),
        List.forall_mem_singleton.2 (.refl _)⟩
  | @widened node hequal =>
      rw [hequal] at hrow hparts
      have hnode := hrow.nested node List.mem_cons_self
      refine ⟨.single (hnode.withSpan hlies (hparts node List.mem_cons_self)),
        List.forall_mem_singleton.2 ?_⟩
      rw [Node.span_withSpan]
      exact .refl _
  | @function params statements hequal hnames _ =>
      rw [hequal] at hrow hparts
      have hbody : (Node.block statements span).Nested text :=
        hrow.nested_node rfl hlies hparts (List.forall_mem_nil _)
      exact ⟨.single (Node.Row.single hbody |>.nested_node rfl hlies
          (List.forall_mem_singleton.2 (.refl _)) fun name h => hwithin _ (hnames name h)),
        List.forall_mem_singleton.2 (.refl _)⟩
  | @callWith callee args attributes inner hequal =>
      rw [hequal] at hrow hparts
      have hobject := hrow.nested (.object attributes inner) (by simp)
      have hinner : inner.Within span := hparts (.object attributes inner) (by simp)
      refine ⟨.single (hrow.open_last.nested_node rfl hlies ?_ ?_),
        List.forall_mem_singleton.2 (.refl _)⟩
      · refine List.forall_mem_append.2 ⟨fun x hx => hparts x (List.mem_append_left _ hx), ?_⟩
        exact fun x hx => (hobject.placed.children x hx).trans hinner
      · exact fun name hname => (hobject.placed.names name hname).trans hinner

/-- Where there is something with a span, it is made of such. -/
theorem filled (h : Makes head span ms m) (hhead : head ≠ .program) {s : Span} (hs : s ∈ m.spans) :
    ms.flatMap Meaning.spans ≠ [] := by
  cases h with
  | handed _ hspans => exact List.ne_nil_of_mem (hspans s hs)
  | node _ _ _ hfilled => exact hfilled.resolve_left hhead
  | @widened node hequal =>
      exact List.ne_nil_of_mem (span_mem_parts (hequal ▸ List.mem_cons_self : node ∈ _))
  | function _ _ hfilled => exact hfilled
  | @callWith callee args attributes inner hequal =>
      exact List.ne_nil_of_mem (span_mem_parts (hequal ▸ List.mem_cons_self : callee ∈ _))

end Rule.Makes

-- ================================================================== stacks

/-- A symbol read whose nodes stand in a row. What it stands for is inside of
its span; a program may have none. -/
structure StackEntry.Placed (text : String) (entry : StackEntry) (symbol : Grammar.Symbol) :
    Prop where
  row : Node.Row text entry.meaning.parts
  within : symbol ≠ .nonTerminal .program → ∀ s ∈ entry.meaning.spans,
    ∃ whole, entry.span = some whole ∧ s.Within whole

section

variable {text : String} {entries : List StackEntry} {body : List Grammar.Symbol}

/-- What the symbols of a body stand for is inside of what covers them. -/
theorem within_coverAll (h : List.Forall₂ (StackEntry.Placed text) entries body)
    (hbody : .nonTerminal .program ∉ body) {s : Span}
    (hs : s ∈ (entries.map (·.meaning)).flatMap Meaning.spans) :
    ∃ covered, Span.coverAll (entries.filterMap (·.span)) = some covered ∧ s.Within covered := by
  obtain ⟨m, hm, hs⟩ := List.mem_flatMap.1 hs
  obtain ⟨entry, hentry, rfl⟩ := List.mem_map.1 hm
  obtain ⟨symbol, hsymbol, hplaced⟩ := exists_of_forall₂ h hentry
  obtain ⟨whole, hwhole, hwithin⟩ := hplaced.within (fun e => hbody (e ▸ hsymbol)) s hs
  obtain ⟨covered, hcovered, hin⟩ :=
    Span.exists_coverAll (List.mem_filterMap.2 ⟨entry, hentry, hwhole⟩)
  exact ⟨covered, hcovered, hwithin.trans hin⟩

/-- The nodes of symbols in a row stand in a row. -/
theorem row_entries (h : List.Forall₂ (StackEntry.Placed text) entries body)
    (hbody : .nonTerminal .program ∉ body)
    (hordered : (entries.filterMap (·.span)).Pairwise Span.Precedes) :
    Node.Row text ((entries.map (·.meaning)).flatMap Meaning.parts) := by
  have hplaced : ∀ entry ∈ entries, Node.Row text entry.meaning.parts ∧
      ∀ x ∈ entry.meaning.parts, ∃ whole, entry.span = some whole ∧ x.span.Within whole := by
    intro entry hentry
    obtain ⟨symbol, hsymbol, hplaced⟩ := exists_of_forall₂ h hentry
    exact ⟨hplaced.row, fun x hx =>
      hplaced.within (fun e => hbody (e ▸ hsymbol)) x.span (Meaning.span_mem hx)⟩
  rw [List.flatMap_map]
  constructor
  · intro x hx
    obtain ⟨entry, hentry, hx⟩ := List.mem_flatMap.1 hx
    exact (hplaced entry hentry).1.nested x hx
  · refine List.pairwise_flatMap.2 ⟨fun entry hentry => (hplaced entry hentry).1.ordered, ?_⟩
    rw [List.pairwise_filterMap] at hordered
    refine hordered.imp_of_mem fun {a b} ha hb hab x hx y hy => ?_
    obtain ⟨whole, hwhole, hxin⟩ := (hplaced a ha).2 x hx
    obtain ⟨whole', hwhole', hyin⟩ := (hplaced b hb).2 y hy
    exact (hab whole hwhole whole' hwhole').mono hxin hyin

end

-- ================================================================= parsing

/-- The spans of the symbols on the stack and of the tokens to come. -/
def Parser.spans (p : Parser) : List Span :=
  p.stack.reverse.filterMap (·.span) ++ (p.lookahead :: p.rest).map (·.span)

/-- The symbols on the stack and the tokens to come stand in a row. -/
structure Parser.Row {tables : Tables} (D : Driver tables) (text : String)
    (symbols : List Grammar.Symbol) (p : Parser) : Prop where
  sound : p.Sound D symbols
  entries : List.Forall₂ (StackEntry.Placed text) p.stack symbols
  lies : ∀ s ∈ p.spans, s.Lies text
  ordered : p.spans.Pairwise Span.Precedes

namespace Parser

variable {tables : Tables} {D : Driver tables} {text : String} {symbols : List Grammar.Symbol}
  {p q : Parser}

theorem row_shift (h : p.Row D text symbols) {state : StateId}
    (haction : tables.action p.state p.lookahead.kind = some (.shift state)) :
    (p.shift state).Row D text (.terminal p.lookahead.kind :: symbols) := by
  have hsound := (sound_shift h.sound haction).1
  obtain ⟨-, next, others, hrest, -, hshift⟩ := shift_eq h.sound haction
  have hspans : (p.shift state).spans = p.spans := by
    rw [hshift]
    simp [spans, hrest]
  refine ⟨hsound, ?_, hspans ▸ h.lies, hspans ▸ h.ordered⟩
  rw [hshift]
  exact .cons ⟨⟨List.forall_mem_nil _, .nil⟩,
    fun _ => List.forall_mem_singleton.2 ⟨_, rfl, .refl _⟩⟩ h.entries

/-- The row with one more symbol read. -/
theorem spans_cons (p : Parser) (entry : StackEntry) (stack : List StackEntry) :
    spans { p with stack := entry :: stack } = stack.reverse.filterMap (·.span) ++
      entry.span.toList ++ (p.lookahead :: p.rest).map (·.span) := by
  rw [spans, List.reverse_cons, List.filterMap_append]
  congr 2

theorem row_reduce (h : p.Row D text symbols) {index : Nat} {rule : Rule}
    (haction : tables.action p.state p.lookahead.kind = some (.reduce index))
    (hrule : rules[index]? = some rule) (hq : p.reduce tables rule = some q) :
    q.Row D text (.nonTerminal rule.production.head ::
      symbols.drop rule.production.body.length) := by
  obtain ⟨rule', q', hrule', hq', hsound, -⟩ := sound_reduce h.sound haction
  obtain rfl := Option.some.inj (hrule.symm.trans hrule')
  obtain rfl := Option.some.inj (hq.symm.trans hq')
  have hbody := program_notMem_body hrule (D.finished h.sound.path.state haction).1
  have htake := (h.sound.path.finished haction hrule).1
  have hentries := forall₂_parts h.entries htake
  have hsorted := sorted_parts h.sound.meant htake
  obtain ⟨m, target, hbuild, -, rfl⟩ := reduce_eq hq
  have hspans : p.spans = (p.stack.drop rule.production.body.length).reverse.filterMap (·.span) ++
      (p.stack.take rule.production.body.length).reverse.filterMap (·.span) ++
        (p.lookahead :: p.rest).map (·.span) := by
    rw [← List.filterMap_append, ← List.reverse_append, List.take_append_drop]
    rfl
  have hlies := hspans ▸ h.lies
  have hordered := hspans ▸ h.ordered
  have hcovered := @within_coverAll _ _ _ hentries hbody
  have hrow := row_entries hentries hbody
    (List.pairwise_append.1 (List.pairwise_append.1 hordered).1).2.1
  have hmakes := rules_made hrule _ _ m hsorted hbuild
  generalize (p.stack.take rule.production.body.length).reverse = popped at *
  have hphrase : ((Span.coverAll (popped.filterMap (·.span))).getD
      (.before p.lookahead.span.start)).Lies text := by
    have hlook : p.lookahead.span.Lies text :=
      h.lies _ (List.mem_append_right _ List.mem_cons_self)
    exact Span.lies_getD_coverAll
      (fun s hs => hlies s (List.mem_append_left _ (List.mem_append_right _ hs)))
      ⟨hlook.start, hlook.start⟩
  obtain ⟨hparts, hwithin⟩ := hmakes.row hphrase hrow fun s hs => by
    obtain ⟨covered, hcover, hin⟩ := hcovered hs
    rwa [hcover]
  refine ⟨hsound, .cons ⟨hparts, fun hhead s hs => ?_⟩ (List.forall₂_drop _ h.entries), ?_, ?_⟩
  · obtain ⟨s', others, hfilled⟩ := List.exists_cons_of_ne_nil
      (hmakes.filled (fun e => hhead (congrArg _ e)) hs)
    obtain ⟨covered, hcover, -⟩ := hcovered (hfilled ▸ List.mem_cons_self)
    have hin := hwithin s hs
    rw [hcover] at hin
    exact ⟨covered, hcover, hin⟩
  · rw [spans_cons]
    exact Span.lies_coverAll hlies
  · rw [spans_cons]
    exact Span.pairwise_coverAll hordered

/-- A semicolon that is supplied takes up nothing. -/
theorem row_supply (h : p.Row D text symbols) (hcan : p.canSupplySemicolon tables = true) :
    p.supplySemicolon.Row D text symbols := by
  have hlies := h.lies
  have hordered := h.ordered
  rw [spans, List.map_cons] at hlies hordered
  obtain ⟨hfront, hback⟩ := List.forall_mem_append.1 hlies
  obtain ⟨hstack, htokens, hcross⟩ := List.pairwise_append.1 hordered
  have hlook : p.lookahead.span.Lies text := hback _ List.mem_cons_self
  refine ⟨(sound_supply h.sound hcan).1, h.entries, ?_, ?_⟩
  · exact List.forall_mem_append.2 ⟨hfront, List.forall_mem_cons.2 ⟨⟨hlook.start, hlook.start⟩, hback⟩⟩
  · refine List.pairwise_append.2 ⟨hstack, List.pairwise_cons.2 ⟨fun s hs => ?_, htokens⟩,
      fun a ha b hb => ?_⟩
    · rcases List.mem_cons.1 hs with rfl | hs
      · exact Nat.le_refl _
      · exact Nat.le_trans (Nat.le_add_right _ _) ((List.pairwise_cons.1 htokens).1 s hs)
    · rcases List.mem_cons.1 hb with rfl | hb
      · exact show a.stop ≤ p.lookahead.span.start from
          hcross a ha p.lookahead.span List.mem_cons_self
      · exact hcross a ha b hb

theorem row_recover (h : p.Row D text symbols) (hq : p.recover tables = .ok q) :
    ∃ drops, q.Row D text (symbols.drop drops) := by
  obtain ⟨drops, hstack, hsound, -⟩ := sound_recover h.sound hq
  obtain ⟨-, -, -, skipped, hskip⟩ := recover_spec h.sound hq
  have hspans : q.spans.Sublist p.spans := by
    rw [spans, spans, hstack, hskip]
    refine List.Sublist.append ?_ ((List.sublist_append_right _ _).map _)
    exact ((List.drop_sublist _ _).reverse).filterMap _
  exact ⟨drops, hsound, hstack ▸ List.forall₂_drop _ h.entries,
    fun s hs => h.lies s (hspans.subset hs), h.ordered.sublist hspans⟩

theorem row_accept (h : p.Row D text symbols)
    (haction : tables.action p.state p.lookahead.kind = some .accept) {root : Node}
    {errors : List SyntaxError} (hstep : p.step tables = .done ⟨some root, errors⟩) :
    root.Nested text := by
  have hentries := h.entries
  obtain ⟨state, span, stack, hstack⟩ := stack_of_accept haction hstep
  rw [hstack] at hentries
  cases hentries with
  | cons hplaced _ => exact hplaced.row.nested root List.mem_cons_self

/-- Each step goes on with a row, or ends with a program that is nested in the
text. -/
theorem row_step (h : p.Row D text symbols) :
    (p.step tables).LeadsTo (fun q => ∃ symbols', q.Row D text symbols')
      (fun parsed => ∀ root, parsed.program = some root → root.Nested text) := by
  refine step_leadsTo (fun state haction => ⟨_, row_shift h haction⟩)
    (fun index rule q haction hrule hq => ⟨_, row_reduce h haction hrule hq⟩)
    (fun root haction hstep => ?_) (fun hcan => ⟨symbols, row_supply h hcan⟩)
    (fun q _ hq => ?_) (fun q _ _ root hroot => nomatch hroot)
  · rintro _ ⟨⟩
    exact row_accept h haction hstep
  · obtain ⟨drops, hrow⟩ := row_recover h hq
    exact ⟨_, hrow⟩

/-- A program that is read from a row is nested in the text, also where
errors were met. -/
theorem row_run {fuel : Nat} (h : p.Row D text symbols) {parsed : Parsed}
    (hrun : p.run tables fuel = some parsed) {root : Node} (hroot : parsed.program = some root) :
    root.Nested text :=
  run_leadsTo (fun q => ∃ symbols, q.Row D text symbols)
    (fun parsed => ∀ root, parsed.program = some root → root.Nested text)
    (fun _ ⟨_, h⟩ => row_step h) ⟨symbols, h⟩ hrun root hroot

end Parser

/-- Where the nodes of a program stand, whether it was read with errors or
without, and with a semicolon at its end or not. The span of every node lies
in the text, between characters. It holds the names of the node and the spans
of the nodes directly below it, and those stand one behind the other. -/
theorem spans_nest (options : ParseOptions) (source : Source) {root : Node}
    (h : (parse options source).program = some root) :
    ∀ node ∈ root.preorder, node.Placed source.text := by
  have hended := ended_scan source.text
  have hspans : (Parser.start options source (Token.scan source.text)).spans
      = (Token.scan source.text).map (·.span) := by
    cases htokens : Token.scan source.text with
    | nil => exact absurd htokens (Token.scan_ne_nil _)
    | cons token rest => rfl
  have hstart : (Parser.start options source (Token.scan source.text)).Row driver source.text [] := by
    refine ⟨Parser.sound_start options source hended, .nil, ?_, ?_⟩
    · rw [hspans]
      exact List.forall_mem_map.2 Token.lies_of_mem
    · rw [hspans, List.pairwise_map]
      exact Token.scan_ordered source.text
  exact Parser.row_run hstart (run_good options source).1 h

/-- The nodes of a loop with a branch and calls stand inside of each other. -/
theorem spans_nest_logOnce :
    (parse {} (.ofText logOnceText)).program = some .logOnce ∧
      ∀ node ∈ Node.logOnce.preorder, node.Placed logOnceText := by
  have hparse : (parse {} (.ofText logOnceText)).program = some .logOnce :=
    congrArg Parsed.program (parse_logOnce {})
  exact ⟨hparse, spans_nest {} (.ofText logOnceText) hparse⟩

end BoardScript
