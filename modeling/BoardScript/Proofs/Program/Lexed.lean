/-
What a program that was read without an error is made of. While the parser
meets no error, each symbol on the stack has a meaning that is made of the
texts of tokens (`Parser.Lexed`). So every text in the program is one that
a token of its kind can have (`proper_of_parse`), also where the last
semicolon was supplied.
-/
import BoardScript.Proofs.Program.Progress
import BoardScript.Proofs.Token.Bytes

namespace BoardScript

open Grammar Lalr

section

variable {tables : Tables} {D : Driver tables} {lex : Lexicon} {symbols : List Symbol} {p q : Parser}

/-- Each symbol on the stack has a meaning of its sort, made of the texts of
tokens, and tokens of the same kinds are to come. -/
structure Parser.Lexed (D : Driver tables) (lex : Lexicon) (symbols : List Symbol) (p : Parser) :
    Prop where
  path : Path D p.stack symbols
  meant : List.Forall₂ (fun entry symbol => entry.meaning.Sorted lex symbol.sort) p.stack symbols
  tokens : ∀ token ∈ p.lookahead :: p.rest, lex token.kind token.lexeme

namespace Parser

theorem lexed_shift (h : p.Lexed D lex symbols) {state : StateId}
    (haction : tables.action p.state p.lookahead.kind = some (.shift state)) :
    (p.shift state).Lexed D lex (.terminal p.lookahead.kind :: symbols) := by
  obtain ⟨ht, -⟩ := D.shifted h.path.state haction
  have hmeaning : Meaning.Sorted lex (.token p.lookahead.kind) (.token p.lookahead) :=
    .token _ rfl (h.tokens _ List.mem_cons_self)
  have htokens := h.tokens
  cases hrest : p.rest with
  | nil =>
      rw [hrest] at htokens
      simp only [Parser.shift, Parser.advance, hrest]
      exact ⟨.cons h.path ht, .cons hmeaning h.meant, htokens⟩
  | cons token rest =>
      rw [hrest] at htokens
      simp only [Parser.shift, Parser.advance, hrest]
      exact ⟨.cons h.path ht, .cons hmeaning h.meant,
        fun token hmem => htokens token (List.mem_cons_of_mem _ hmem)⟩

theorem lexed_reduce (h : p.Lexed D lex symbols) {index : Nat} {rule : Rule}
    (haction : tables.action p.state p.lookahead.kind = some (.reduce index))
    (hrule : rules[index]? = some rule) (hq : p.reduce tables rule = some q) :
    ∃ symbols', q.Lexed D lex symbols' := by
  have hbelow := h.path.drop rule.production.body.length
  obtain ⟨m, target, hbuild, hgoto, rfl⟩ := reduce_eq hq
  rw [D.goto _ hbelow.state] at hgoto
  have hparts := sorted_parts h.meant (h.path.finished haction hrule).1
  obtain ⟨m', hbuild', hsorted⟩ := rules_sorted lex hrule _ _ hparts
  obtain rfl := Option.some.inj (hbuild.symm.trans hbuild')
  exact ⟨_, .cons hbelow hgoto, .cons hsorted (List.forall₂_drop _ h.meant), h.tokens⟩

theorem lexed_accept (h : p.Lexed D lex symbols)
    (haction : tables.action p.state p.lookahead.kind = some .accept) {root : Node}
    {errors : List SyntaxError} (hstep : p.step tables = .done ⟨some root, errors⟩) :
    root.isBlock = true ∧ root.Proper lex := by
  obtain ⟨root', hstep', hblock, hproper⟩ := step_accept h.path h.meant haction
  cases hstep.symm.trans hstep'
  exact ⟨hblock, hproper⟩

theorem lexed_supply (hsemicolon : lex .semicolon "") (h : p.Lexed D lex symbols) :
    p.supplySemicolon.Lexed D lex symbols :=
  ⟨h.path, h.meant, List.forall_mem_cons.2 ⟨hsemicolon, h.tokens⟩⟩

/-- A run that ends without an error has read a program that is made of the
texts of tokens. -/
theorem lexed_run (hsemicolon : lex .semicolon "") {fuel : Nat} (h : p.Lexed D lex symbols)
    (hclean : p.lastError = none) {root : Node} (hrun : p.run tables fuel = some ⟨some root, []⟩) :
    root.isBlock = true ∧ root.Proper lex := by
  refine run_clean_leadsTo (fun p => ∃ symbols, p.Lexed D lex symbols)
    (fun root => root.isBlock = true ∧ root.Proper lex) ?_ ?_ ?_ ?_ ⟨symbols, h⟩ hclean hrun
  · rintro p state ⟨symbols, h⟩ haction
    exact ⟨_, lexed_shift h haction⟩
  · rintro p index rule q ⟨symbols, h⟩ haction hrule hq
    exact lexed_reduce h haction hrule hq
  · rintro p root ⟨symbols, h⟩ haction hstep
    exact lexed_accept h haction hstep
  · rintro p ⟨symbols, h⟩ -
    exact ⟨symbols, lexed_supply hsemicolon h⟩

end Parser

end

-- ==================================================================== texts

/-- Kinds of tokens whose texts are kept in a tree. -/
def TokenKind.isKept (kind : TokenKind) : Bool := kind.isFree || kind == .string

section

variable {lex lex' : Lexicon}
  (hkept : ∀ kind text, kind.isKept = true → lex kind text → lex' kind text)

include hkept

theorem Lexicon.PropertyName.mono {text : String} (h : lex.PropertyName text) :
    lex'.PropertyName text :=
  h.imp (hkept _ _ rfl) (Or.imp (hkept _ _ rfl) (hkept _ _ rfl))

theorem Node.Shaped.mono {node : Node} (h : node.Shaped lex) : node.Shaped lex' := by
  cases node with
  | assign n value span => exact ⟨hkept _ _ rfl h.1, h.2⟩
  | assignProperty owner n value span => exact ⟨h.1, h.2.1.mono hkept, h.2.2⟩
  | useBoard n span => exact hkept _ _ rfl h
  | function params body literal span => exact ⟨fun n hn => hkept _ _ rfl (h.1 n hn), h.2⟩
  | map params body literal span => exact ⟨fun n hn => hkept _ _ rfl (h.1 n hn), h.2⟩
  | callWith callee args attributes span =>
      exact ⟨h.1, h.2.1, fun p hp => ⟨hkept _ _ rfl (h.2.2 p hp).1, (h.2.2 p hp).2⟩⟩
  | object properties span => exact fun p hp => ⟨hkept _ _ rfl (h p hp).1, (h p hp).2⟩
  | identifier n span => exact hkept _ _ rfl h
  | numeral text kind span => exact hkept _ _ (by cases kind <;> rfl) h
  | string value span =>
      obtain ⟨lexeme, hlex, hvalue⟩ := h
      exact ⟨lexeme, hkept _ _ rfl hlex, hvalue⟩
  | property owner n span => exact ⟨h.1, h.2.mono hkept⟩
  | _ => exact h

/-- Only texts that a tree keeps matter to it. -/
theorem Node.Proper.mono {node : Node} (h : node.Proper lex) : node.Proper lex' := by
  induction h with
  | intro here _ ih => exact .intro (here.mono hkept) ih

end

/-- A program that was read without an error is a block, and each text in it
is one that a token of its kind can have. -/
theorem proper_of_parse {options : ParseOptions} {source : Source} {root : Node}
    (h : parse options source = ⟨some root, []⟩) :
    root.isBlock = true ∧ root.Proper Lexical := by
  let kept : Lexicon := fun kind text => kind.isKept = true → Lexical kind text
  have htokens : ∀ token ∈ Token.scan source.text, kept token.kind token.lexeme := by
    intro token hmem hkept
    rw [Token.scan_eq] at hmem
    refine lexical_scanFrom .start _ token hmem ?_ ?_
    · intro hkind
      rw [hkind] at hkept
      cases hkept
    · intro hkind
      rw [hkind] at hkept
      cases hkept
  have hrun := (run_good options source).1
  rw [h] at hrun
  have hahead : ∀ token ∈ (Parser.start options source (Token.scan source.text)).lookahead ::
      (Parser.start options source (Token.scan source.text)).rest, kept token.kind token.lexeme := by
    generalize Token.scan source.text = tokens at htokens
    cases tokens with
    | nil => exact List.forall_mem_singleton.2 fun h => nomatch h
    | cons token tokens => exact htokens
  have hstart : (Parser.start options source (Token.scan source.text)).Lexed driver kept [] :=
    ⟨.nil, .nil, hahead⟩
  obtain ⟨hblock, hproper⟩ := Parser.lexed_run (fun h => nomatch h) hstart rfl hrun
  exact ⟨hblock, hproper.mono fun kind text hkind h => h hkind⟩

end BoardScript
