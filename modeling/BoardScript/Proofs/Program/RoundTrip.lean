/-
Programs that are written out and read again. The text of a program that
was read without an error is scanned to the words of the program and read
as the program again, with braces around its bodies
(`parse_program`). The same holds of a function or map literal that
stands somewhere in it (`parse_surface`).
-/
import BoardScript.Proofs.Program.Lexed
import BoardScript.Proofs.Program.Reread

namespace BoardScript

open Grammar

/-- What is read from a text whose words are those of statements. -/
theorem parse_words (options : ParseOptions) {text : String}
    (hblank : Comment.blank text.toList = text.toList) {words : List Word} {nodes : List Node}
    (hwords : spell text.toList = words ++ [(.endOfInput, "")])
    (hreads : Reads (.nonTerminal .statements) words (.nodes nodes)) :
    ∃ again, parse options (.ofText text) = ⟨some again, []⟩ ∧ again.bare = .block nodes default := by
  have hprogram : Reads (.nonTerminal .program) words (.node (.block nodes default)) :=
    .node 1 rfl (by decide) (.last hreads) rfl
  rw [spell] at hwords
  obtain ⟨before, back, htokens, hbefore, hback⟩ := List.map_eq_append_iff.1 hwords
  obtain ⟨eof, rfl, heof⟩ := List.map_eq_singleton_iff.1 hback
  obtain ⟨d, rfl, hnear, hgist⟩ := hprogram before hbefore
  obtain ⟨again, hmeaning, hparse⟩ := parseTokens_phrase options (.ofText text) d hnear []
    (show eof.kind = .endOfInput from congrArg Prod.fst heof)
  refine ⟨again, ?_, ?_⟩
  · have hscan : Token.scan text = d.tokens ++ [eof] := by rw [Token.scan_eq, hblank, htokens]
    rw [← hparse, ← hscan]
    rfl
  · have hbare := d.bare_meaning eof.span.start
    rw [hmeaning, hgist] at hbare
    exact Meaning.node.inj (Option.some.inj hbare)

/-- A program is read from its own text. -/
theorem parse_program (options : ParseOptions) {root : Node} (hblock : root.isBlock = true)
    (h : root.Proper Lexical)
    (hblank : Comment.blank (Surface.program root).toList = (Surface.program root).toList) :
    ∃ again, parse options (.ofText (Surface.program root)) = ⟨some again, []⟩ ∧
      again.bare = root.braced := by
  cases root with
  | block statements s =>
      have hwords := spells_lines (fun n (hn : n ∈ statements) => (h.child hn).spells) 0 []
      rw [List.append_nil, spell_nil] at hwords
      obtain ⟨again, hparse, hbare⟩ := parse_words options hblank hwords (h.rereads.lines rfl)
      refine ⟨again, hparse, ?_⟩
      rw [hbare, Node.braced, Node.recast, recastAll_eq_map]
      rfl
  | _ => cases hblock

-- ================================================================= literals

theorem Node.Proper.of_preorder {lex : Lexicon} {root node : Node} (h : root.Proper lex)
    (hmem : node ∈ root.preorder) : node.Proper lex :=
  Node.of_preorder Node.Proper.child h hmem

/-- The literal that a node holds. -/
def Node.literal? : Node → Option FunctionLiteral
  | .function params body span _ => some ⟨false, params, body, span⟩
  | .map params body span _ => some ⟨true, params, body, span⟩
  | _ => none

attribute [local simp] parting isWordStart isWordPart operatorOf operatorOfPair beginsPair
  TokenKind.ofWord_eq_iff TokenKind.keywords in
/-- The words of a literal, in front of a parted text. -/
theorem spell_literal {node : Node} {literal : FunctionLiteral} (hnode : node.literal? = some literal)
    (h : node.Proper Lexical) :
    ∃ words, (∀ rest, Parted rest →
        spell ((Surface.literal literal.params literal.body literal.isMap).toList ++ rest)
          = words ++ spell rest) ∧
      Reads (.nonTerminal .expression) words (.node node.braced) := by
  cases node with
  | function params body span s =>
      cases hnode
      refine ⟨_, ?_, h.rereads.loose rfl⟩
      exact h.spells 0
  | map params body span s =>
      cases hnode
      have hbody := h.child (show body ∈ _ by simp [Node.children])
      refine ⟨_, ?_, reads_map span s h.shaped.1 (hbody.rereads.loose h.shaped.2)⟩
      intro rest hrest
      have hspells := hbody.spells 0 rest hrest
      simp [Surface.literal, Word.parens, spell_names h.shaped.1, hspells,
        -String.toList_intercalate]
  | _ => cases hnode

theorem program_recast (move : Span → Span) (braced : Bool) (root : Node) :
    Surface.program (root.recast move braced) = Surface.program root := by
  have hstatements : (root.recast move braced).statements
      = recastAll move braced root.statements := by
    cases root <;> rfl
  rw [Surface.program, hstatements, surfaceLines_recast, Surface.program]

/-- An expression that is assigned to a name. -/
theorem reads_assigned (text : String) {words : List Word} {value : Node}
    (h : Reads (.nonTerminal .expression) words (.node value)) :
    Reads (.nonTerminal .statements)
      ((.identifier, text) :: (.assign, "=") :: (words ++ [(.semicolon, ";")]))
      (.nodes [.assign ⟨text, default⟩ value default]) := by
  have htarget : Reads (.nonTerminal .target) [(.identifier, text)]
      (.target (.variable ⟨text, default⟩)) :=
    .node 18 rfl (by decide) (.token .nil) rfl
  have hassignment : Reads (.nonTerminal .assignment)
      ([(.identifier, text)] ++ (.assign, "=") :: words) (.node (.assign ⟨text, default⟩ value default)) :=
    .node 17 rfl (by decide) (.cons htarget (.token (.last h))) rfl
  have hstatement : Reads (.nonTerminal .statement)
      ((.identifier, text) :: (.assign, "=") :: (words ++ [(.semicolon, ";")]))
      (.node (.assign ⟨text, default⟩ value default)) :=
    .node 13 rfl (by decide) (.cons hassignment (.token .nil)) rfl
  have hnone : Reads (.nonTerminal .statements) [] (.nodes []) :=
    .node 3 rfl (by decide) .nil rfl
  exact .node 2 rfl (by decide) (.cons hnone (.last hstatement)) rfl

/-- A block of one statement, by the block without places. -/
theorem Node.exists_of_bare_block {node statement : Node} {s : Span}
    (h : node.bare = .block [statement] s) :
    ∃ found s', node = .block [found] s' ∧ found.bare = statement := by
  cases node with
  | block statements s' =>
      obtain ⟨hstatements, -⟩ := Node.block.inj h
      rw [recastAll_eq_map, List.map_eq_singleton_iff] at hstatements
      obtain ⟨found, rfl, hfound⟩ := hstatements
      exact ⟨found, s', rfl, hfound⟩
  | _ => cases h

/-- An assignment that is read without places. -/
theorem exists_of_bare_assign {node value : Node} {n : Name}
    (h : node.bare = .block [.assign n value default] default) :
    ∃ n' value' s s', node = .block [.assign n' value' s] s' ∧ n'.text = n.text ∧
      value'.bare = value := by
  obtain ⟨first, s', rfl, hfirst⟩ := Node.exists_of_bare_block h
  cases first with
  | assign n' value' s =>
      obtain ⟨rfl, rfl, -⟩ := Node.assign.inj hfirst
      exact ⟨n', value', s, s', rfl, rfl, rfl⟩
  | _ => cases hfirst

/-- Surface code is read back: a program that was read without an error is
read again from its own text, and a literal in it from an assignment, with
braces around every body. -/
theorem parse_surface (source : Source) (root : Node) (h : parse {} source = ⟨some root, []⟩) :
    (Comment.blank (Surface.program root).toList = (Surface.program root).toList →
      ∃ again, parse {} (.ofText (Surface.program root)) = ⟨some again, []⟩ ∧
        again.bare = root.braced ∧ Surface.program again = Surface.program root) ∧
    ∀ node ∈ root.preorder, ∀ literal, node.literal? = some literal →
      ∀ text, text = "g = " ++ Surface.literal literal.params literal.body literal.isMap ++ ";" →
        Comment.blank text.toList = text.toList →
        ∃ n value s s', parse {} (.ofText text) = ⟨some (.block [.assign n value s] s'), []⟩ ∧
          n.text = "g" ∧ value.bare = node.braced := by
  obtain ⟨hblock, hproper⟩ := proper_of_parse h
  refine ⟨fun hblank => ?_, ?_⟩
  · obtain ⟨again, hparse, hbraced⟩ := parse_program {} hblock hproper hblank
    refine ⟨again, hparse, hbraced, ?_⟩
    calc Surface.program again
        = Surface.program again.bare := (program_recast nowhere false again).symm
      _ = Surface.program root.braced := by rw [hbraced]
      _ = Surface.program root := program_recast nowhere true root
  · rintro node hmem literal hliteral text rfl hblank
    obtain ⟨words, hspell, hvalue⟩ := spell_literal hliteral (hproper.of_preorder hmem)
    have hname : Lexical .identifier "g" := ⟨.word, by decide, rfl, rfl⟩
    have hwords : spell ("g = " ++ Surface.literal literal.params literal.body literal.isMap
        ++ ";").toList = (.identifier, "g") :: (.assign, "=") :: (words ++ [(.semicolon, ";")]) ++
          [(.endOfInput, "")] := by
      have hrest := hspell [';'] (parted_cons rfl [])
      rw [spell_semicolon] at hrest
      have hbegin {rest : List Char} (h : Parted rest) :
          spell ('g' :: rest) = (.identifier, "g") :: spell rest :=
        spell_lexical "g" hname (by decide) h
      simp [hbegin, hrest, parting]
    obtain ⟨again, hparse, hbare⟩ := parse_words {} hblank hwords (reads_assigned "g" hvalue)
    obtain ⟨n, value, s, s', rfl, hn, hv⟩ := exists_of_bare_assign hbare
    exact ⟨n, value, s, s', hparse, hn, hv⟩

/-- The text of a loop with a branch and calls is read back. -/
theorem parse_surface_logOnce :
    ∃ again, parse {} (.ofText (Surface.program .logOnce)) = ⟨some again, []⟩ ∧
      again.bare = Node.logOnce.braced ∧ Surface.program again = Surface.program .logOnce :=
  (parse_surface (.ofText logOnceText) .logOnce (parse_logOnce {})).1 (by decide)

end BoardScript
